-- What a turn of the run loop does to the journey of a request. First the requests
-- that wait are admitted, then those of the batch make their step, and all others
-- are left alone.
import InferenceMesh.Server.BatchFailure
import InferenceMesh.Server.JourneySteps

open ordered_dict python state_exn
open parallax.server.cache_manager parallax.server.request parallax.server.scheduler
open parallax.p2p.message_util

namespace parallax.server.executor

variable {c : Setup} {now k i j d : Nat} {id : String} {P tokens : List Int} {input : Tensor}
  {p p' : Pipeline} {e e' : Executor} {r req : Request} {b : Batch} {passes : Passes}

/-! ## Admission -/

/-- A request whose step is at the peer: a prefill may become ready, or be dropped. -/
theorem OnItsWay.admitted_here (hk : 0 < k) (hi : i < k) (hpeer : PeerAt k i (p.peers i))
    {place : Place} (h : OnItsWay c k p id P tokens i place) (now : Nat) :
    ∃ place, OnItsWay c k (p.with_peer i (admitted now (p.peers i))) id P tokens i place := by
  have hself : Function.update p.peers i (admitted now (p.peers i)) i =
      admitted now (p.peers i) := Function.update_self ..
  have halone : (p.peers i).waiting_for id = [] →
      ∃ place, OnItsWay c k (p.with_peer i (admitted now (p.peers i))) id P tokens i place :=
    fun hnone => ⟨place, h.untouched hk (Untouched.with_peer (admitted_spares hpeer hnone))⟩
  have hhere := h.here
  cases place with
  | flying =>
    obtain ⟨_, _, _, hidle, _⟩ := hhere
    exact halone (hidle i hi rfl).waiting
  | waiting =>
    obtain ⟨_, hnil, ⟨input, hfed, hwaits⟩, hflying, hlogged⟩ := hhere
    have haside : Aside k (p.with_peer i (admitted now (p.peers i))) id P tokens i :=
      h.toAside.with_peer (new_not_vanished hwaits.running) rfl rfl
    rcases hwaits.admitted hpeer now with hwaits | hready | habsent
    · refine ⟨.waiting, haside, hi, hnil, ⟨input, hfed.of_passed rfl, ?_⟩, hflying,
        hlogged.of_passed rfl⟩
      show Waits i id P tokens input (Function.update p.peers i _ i)
      rw [hself]
      exact hwaits
    · refine ⟨.ready, haside, hi, ⟨input, hfed.of_passed rfl, ?_⟩, hflying, hlogged.of_passed rfl⟩
      show Ready i id P tokens tokens.length input (Function.update p.peers i _ i)
      rw [hself, hnil]
      rw [hnil] at hready
      exact hready
    · refine ⟨.lost, haside, hi, hnil, ?_, hflying, hlogged.of_passed rfl⟩
      show Absent id (Function.update p.peers i _ i)
      rw [hself]
      exact habsent
  | ready =>
    obtain ⟨_, ⟨_, _, hready⟩, _⟩ := hhere
    exact halone hready.waiting
  | lost => exact halone hhere.2.2.1.waiting

/-- Of a request that ended, a peer has nothing, or it rests there. -/
theorem Ended.at_peer (h : Ended k p id P) (hi : i < k) :
    Absent id (p.peers i) ∨ ∃ P tokens d, Rests i id P tokens d (p.peers i) := by
  by_cases hpos : i = 0
  · subst hpos
    exact Or.inl h.first
  · rcases h.others i hi hpos with ⟨habsent, _⟩ | ⟨hrests, _⟩
    · exact Or.inl habsent
    · exact Or.inr hrests

theorem Ended.waiting (h : Ended k p id P) (hi : i < k) : (p.peers i).waiting_for id = [] := by
  rcases h.at_peer hi with habsent | ⟨P, tokens, d, hrests⟩
  · exact habsent.waiting
  · exact hrests.waiting

theorem Sound.admitted (hk : 0 < k) (h : Sound c k p) (hi : i < k) (now : Nat) :
    Sound c k (p.with_peer i (executor.admitted now (p.peers i))) := by
  have hpeer := h.peers i hi
  refine ⟨peers_with h.peers (admitted_keeps hpeer now), fun id => ?_⟩
  have halone : (p.peers i).waiting_for id = [] →
      Untouched k id p (p.with_peer i (executor.admitted now (p.peers i))) :=
    fun hnone => Untouched.with_peer (admitted_spares hpeer hnone)
  cases h.traced id with
  | unseen hunseen => exact .unseen (hunseen.untouched hk (halone (hunseen.absent i hi).waiting))
  | ended hid hended => exact .ended hid (hended.untouched hk (halone (hended.waiting hi)))
  | @on_its_way P tokens j place hid hway =>
    by_cases hji : i = j
    · subst hji
      obtain ⟨place, hthere⟩ := hway.admitted_here hk hi hpeer now
      exact .on_its_way hid hthere
    · exact .on_its_way hid (hway.untouched hk (halone (hway.others i hi hji).waiting))

/-! ## The batch -/

/-- Only a request whose step is at the peer is ready there. -/
theorem Traced.of_ready (h : Traced c k p id) (hi : i < k) (hr : (p.peers i).running id = some r)
    (hready : r.ready_for_next_step = true) :
    id ≠ "" ∧ ∃ P tokens, OnItsWay c k p id P tokens i .ready := by
  have hresting : ∀ P tokens d, Idle i id P tokens d (p.peers i) → False := by
    intro P tokens d hidle
    rw [hidle.not_ready hr] at hready
    cases hready
  cases h with
  | unseen h => exact (hresting [] [] 0 (idle_zero.mpr (h.absent i hi))).elim
  | ended _ h =>
    rcases h.at_peer hi with habsent | ⟨P, tokens, d, hrests⟩
    · exact (hresting [] [] 0 (idle_zero.mpr habsent)).elim
    · obtain ⟨r', hr', hno, _⟩ := hrests.running
      rw [hr] at hr'
      cases hr'
      rw [hno] at hready
      cases hready
  | @on_its_way P tokens j place hid h =>
    by_cases hji : i = j
    · subst hji
      have hhere := h.here
      cases place with
      | flying => exact (hresting _ _ _ (hhere.2.2.2.1 i hi rfl)).elim
      | waiting =>
        obtain ⟨_, _, ⟨_, _, hwaits⟩, _⟩ := hhere
        rw [hwaits.running] at hr
        cases hr
      | ready => exact ⟨hid, P, tokens, h⟩
      | lost =>
        rw [hhere.2.2.1.running] at hr
        cases hr
    · exact (hresting _ _ _ (h.others i hi hji)).elim

theorem getElem?_concat {α : Type} {l : List α} {a x : α} {t : Nat} (h : (l ++ [a])[t]? = some x) :
    l[t]? = some x ∨ t = l.length ∧ x = a := by
  by_cases hlt : t < l.length
  · rw [List.getElem?_append_left hlt] at h
    exact Or.inl h
  · rw [List.getElem?_append_right (by omega)] at h
    obtain ⟨hbound, hx⟩ := List.getElem?_eq_some_iff.mp h
    rw [List.length_singleton] at hbound
    refine Or.inr ⟨by omega, ?_⟩
    rw [← hx, List.getElem_singleton]

theorem getElem?_grows {α : Type} {l : List α} {x : α} {t : Nat} (a : α) (h : l[t]? = some x) :
    (l ++ [a])[t]? = some x := by
  rw [List.getElem?_append_left (List.getElem?_eq_some_iff.mp h).1]
  exact h

/-- What peer `i` has put through its model for step `n`, with what it got for it. -/
structure Enters (p : Pipeline) (id : String) (P produced : List Int) (i n : Nat) (x : Passed) :
    Prop where
  context : x.context_length = P.length + n
  length : x.request.total_length = P.length + n
  first : i = 0 → produced.length = n ∧ x.request.is_prefill = decide (n = 0) ∧
    x.request.input_ids = P ∧ x.request.output_ids = produced
  others : ∀ input, Fed p id i n input → i ≠ 0 → x.request.hidden_states = some input

/-- A request that is due enters its step. -/
theorem Due.enters_step {n : Nat} {output : Tensor} {token : Int} (hn : tokens.length = n)
    (hdue : Due i P tokens n input r) (hfed : Fed p id i n input) :
    Enters p id P tokens i n ⟨r, P.length + n, token, output⟩ := by
  refine ⟨rfl, hdue.length, fun hi => ?_, fun input' hfed' hi => ?_⟩
  · obtain ⟨_, _, hids, _, houtput⟩ := hdue.own hi
    exact ⟨hn, hdue.is_prefill, hids, houtput⟩
  · obtain ⟨x, hx, rfl⟩ := hfed hi
    obtain ⟨x', hx', rfl⟩ := hfed' hi
    rw [hx] at hx'
    cases hx'
    exact (hdue.packet hi).2.2.1

theorem Logged.passed_length {d : Nat → Nat} {produced : List Int}
    (h : Logged k p id P d produced) (hj : j < k) : (p.passed_at j id).length = d j := by
  have hlength := congrArg List.length (h.contexts j hj)
  unfold Pipeline.contexts at hlength
  rwa [List.length_map, List.length_range'] at hlength

/-- One more step at peer `i`. -/
theorem Logged.step {d : Nat → Nat} {produced : List Int} {x : Passed} (hi : i < k)
    (h : Logged k p id P d produced) (p' : Pipeline)
    (hothers : ∀ j, j ≠ i → p'.passed_at j id = p.passed_at j id)
    (hhere : p'.passed_at i id = p.passed_at i id ++ [x]) (hfed : Fed p id i (d i) input)
    (henters : Enters p id P produced i (d i) x) (hround : d 0 ≤ produced.length + 1) :
    Logged k p' id P (Function.update d i (d i + 1))
      (if i + 1 = k then produced ++ [x.token] else produced) := by
  have hsteps : ∀ j < k, (p.passed_at j id).length = d j := fun j hj => h.passed_length hj
  have htake : ∀ t, t ≤ produced.length →
      (if i + 1 = k then produced ++ [x.token] else produced).take t = produced.take t := by
    intro t ht
    split
    · rw [List.take_append_of_le_length ht]
    · rfl
  have hk : 0 < k := by omega
  refine ⟨fun j hj => ?_, ?_, ?_, fun t y hy => ?_, fun j hj t y hy => ?_⟩
  · have hbefore := h.contexts j hj
    unfold Pipeline.contexts at *
    by_cases hji : j = i
    · subst hji
      rw [hhere, List.map_append, hbefore, Function.update_self, List.range'_1_concat,
        List.map_singleton, henters.context]
    · rw [hothers j hji, hbefore, Function.update_of_ne hji]
  · have hbefore := h.lengths
    unfold Pipeline.total_lengths at *
    by_cases h0 : 0 = i
    · subst h0
      rw [hhere, List.map_append, hbefore, Function.update_self, List.range'_1_concat,
        List.map_singleton, henters.length]
    · rw [hothers 0 h0, hbefore, Function.update_of_ne h0]
  · have hbefore := h.produced
    unfold Pipeline.produced at *
    by_cases hlast : i + 1 = k
    · have hplace : k - 1 = i := by omega
      rw [if_pos hlast, hplace, hhere, List.map_append, ← hplace, hbefore]
      rfl
    · rw [if_neg hlast, hothers (k - 1) (by omega), hbefore]
  · have hold : (p.passed_at 0 id)[t]? = some y → y.request.is_prefill = decide (t = 0) ∧
        y.request.input_ids = P ∧ y.request.output_ids =
          (if i + 1 = k then produced ++ [x.token] else produced).take t := by
      intro hy
      obtain ⟨hprefill, hids, houtput⟩ := h.prompts t y hy
      have hlt := (List.getElem?_eq_some_iff.mp hy).1
      rw [hsteps 0 hk] at hlt
      exact ⟨hprefill, hids, by rw [htake t (by omega)]; exact houtput⟩
    by_cases h0 : 0 = i
    · subst h0
      rw [hhere] at hy
      rcases getElem?_concat hy with hy | ⟨rfl, rfl⟩
      · exact hold hy
      · obtain ⟨hn, hprefill, hids, houtput⟩ := henters.first rfl
        rw [hsteps 0 hk]
        refine ⟨hprefill, hids, ?_⟩
        rw [htake _ (by omega), ← hn, List.take_length]
        exact houtput
    · rw [hothers 0 h0] at hy
      exact hold hy
  · have hbehind : ∀ y : Passed, (p.passed_at j id)[t]? = some y →
        (p'.passed_at j id)[t]? = some y := by
      intro y hy
      by_cases hji : j = i
      · subst hji
        rw [hhere]
        exact getElem?_grows x hy
      · rw [hothers j hji]
        exact hy
    by_cases hji : j + 1 = i
    · subst hji
      rw [hhere] at hy
      rcases getElem?_concat hy with hy | ⟨rfl, rfl⟩
      · obtain ⟨z, hz, hhidden⟩ := h.chained j hj t y hy
        exact ⟨z, hbehind z hz, hhidden⟩
      · rw [hsteps (j + 1) hi] at hbehind ⊢
        obtain ⟨z, hz, houtput⟩ := hfed (Nat.succ_ne_zero j)
        refine ⟨z, hbehind z hz, ?_⟩
        rw [houtput]
        exact henters.others input hfed (Nat.succ_ne_zero j)
    · rw [hothers (j + 1) hji] at hy
      obtain ⟨z, hz, hhidden⟩ := h.chained j hj t y hy
      exact ⟨z, hbehind z hz, hhidden⟩

/-- The pipeline after a batch of peer `i`. -/
def Pipeline.after_batch (p : Pipeline) (k i : Nat) (b : Batch) : Pipeline :=
  ((p.with_peer i b.peer).forward (next_peer k i) (b.sent.flatMap flights)).log i b.passed

section after_batch

variable (p b)

theorem after_batch_passed (k : Nat) (h : j ≠ i) :
    (p.after_batch k i b).passed_at j id = p.passed_at j id := by
  unfold Pipeline.passed_at
  show (Function.update p.passed i _ j).filter _ = _
  rw [Function.update_of_ne h]

theorem after_batch_passed_here (k i : Nat) (id : String) :
    (p.after_batch k i b).passed_at i id = p.passed_at i id ++ b.passed_for id := by
  unfold Pipeline.passed_at Batch.passed_for
  show (Function.update p.passed i (p.passed i ++ b.passed) i).filter _ = _
  rw [Function.update_self, List.filter_append]

theorem after_batch_flying (k i : Nat) (id : String) (j : Nat) :
    (p.after_batch k i b).flying_to j id =
      if j = next_peer k i then p.flying_to j id ++ b.sent_for id else p.flying_to j id := by
  unfold Pipeline.flying_to Batch.sent_for
  show (Function.update p.forwards (next_peer k i) _ j).filter _ = _
  by_cases hj : j = next_peer k i
  · subst hj
    rw [Function.update_self, if_pos rfl, List.filter_append]
    rfl
  · rw [Function.update_of_ne hj, if_neg hj]

end after_batch

/-- A batch without the request. -/
theorem Untouched.after_batch (hspares : Spares id (p.peers i) b.peer) (hsent : b.sent_for id = [])
    (hpassed : b.passed_for id = []) : Untouched k id p (p.after_batch k i b) :=
  ((Untouched.with_peer hspares).trans (Untouched.forward _ _ hsent)).trans
    (Untouched.log _ _ hpassed)

/-- The step is made, and its packet is on the way to the next peer. -/
theorem OnItsWay.passes_on (hi : i < k) (hk : k ≠ 1) (h : OnItsWay c k p id P tokens i .ready)
    {token : Int} {output : Tensor} {flight : Flight} (hfed : Fed p id i tokens.length input)
    (hdue : Due i P tokens tokens.length input r)
    (hrests : Rests i id P tokens (tokens.length + 1) b.peer)
    (hcommitted : b.peer.committed id = (p.peers i).committed id)
    (hfinished : b.peer.finished_for id = (p.peers i).finished_for id)
    (hpassed : b.passed_for id = [⟨r, P.length + tokens.length, token, output⟩])
    (hsent : b.sent_for id = [flight])
    (hleaving : Leaving c k i id P tokens.length token output flight) :
    OnItsWay c k (p.after_batch k i b) id P tokens (i + 1) .flying := by
  obtain ⟨_, _, hflying, hlogged⟩ := h.here
  obtain ⟨r', hr', _⟩ := hrests.running
  have hself : Function.update p.peers i b.peer i = b.peer := Function.update_self ..
  have haside : Aside k (p.with_peer i b.peer) id P tokens i :=
    h.toAside.with_peer (running_not_vanished hr') hfinished hcommitted
  have hhere : (p.after_batch k i b).passed_at i id =
      p.passed_at i id ++ [⟨r, P.length + tokens.length, token, output⟩] := by
    rw [after_batch_passed_here, hpassed]
  have hround : steps tokens.length i 0 ≤ tokens.length + 1 := by
    unfold steps
    split <;> omega
  have hstep := hlogged.step hi (p.after_batch k i b) (fun j hj => after_batch_passed p b k hj) hhere
    (by rw [steps_self]; exact hfed) (by rw [steps_self]; exact hdue.enters_step rfl hfed) hround
  rw [steps_succ] at hstep
  have hfed' : Fed (p.after_batch k i b) id (i + 1) tokens.length output := by
    have hlength := hlogged.passed_length hi
    rw [steps_self] at hlength
    refine fun _ => ⟨⟨r, P.length + tokens.length, token, output⟩, ?_, rfl⟩
    show ((p.after_batch k i b).passed_at i id)[tokens.length]? = _
    rw [hhere, ← hlength, List.getElem?_concat_length]
  refine ⟨⟨haside.prompts, haside.evicted, ?_, haside.aborts, haside.finished,
    haside.committed⟩, Nat.succ_pos i, hi, by omega, ?_, token, output, flight, ?_, hfed', ?_, hstep⟩
  · intro j hj hne
    show Idle j id P tokens _ (Function.update p.peers i b.peer j)
    by_cases hji : j = i
    · subst hji
      rw [hself]
      unfold steps
      rw [if_pos (Nat.lt_succ_self j)]
      exact (idle_rests (Nat.succ_ne_zero _)).mpr hrests
    · have hidle := haside.others j hj hji
      have hsteps : steps tokens.length (i + 1) j = steps tokens.length i j := by
        rw [← steps_succ, Function.update_of_ne hji]
      rw [hsteps]
      exact hidle
  · rintro j hj rfl
    have hidle := haside.others (i + 1) hj (Nat.succ_ne_self i)
    unfold steps at hidle
    rw [if_neg (by omega)] at hidle
    exact hidle
  · exact hleaving
  · intro j hj
    rw [after_batch_flying, hflying j hj, hsent]
    rfl

/-- A single node has made the step and handled its token. -/
theorem OnItsWay.goes_round (hi : 0 < k) (hk : k = 1) (hid : id ≠ "")
    (h : OnItsWay c k p id P tokens 0 .ready) {token : Int} {output : Tensor}
    (hdue : Due 0 P tokens tokens.length input r)
    (hcommitted : b.peer.committed id = (p.peers 0).committed id ++ [token])
    (hfinished : b.peer.finished_for id = (p.peers 0).finished_for id)
    (hpassed : b.passed_for id = [⟨r, P.length + tokens.length, token, output⟩])
    (hsent : b.sent_for id = [])
    (hcases : Ready 0 id P (tokens ++ [token]) (tokens.length + 1) [] b.peer ∨ Absent id b.peer) :
    Traced c k (p.after_batch k 0 b) id := by
  obtain ⟨_, _, hflying, hlogged⟩ := h.here
  have hself : Function.update p.peers 0 b.peer 0 = b.peer := Function.update_self ..
  have hfed : Fed p id 0 tokens.length input := fun h0 => absurd rfl h0
  have hhere : (p.after_batch k 0 b).passed_at 0 id =
      p.passed_at 0 id ++ [⟨r, P.length + tokens.length, token, output⟩] := by
    rw [after_batch_passed_here, hpassed]
  have hstep := hlogged.step hi (p.after_batch k 0 b) (fun j hj => after_batch_passed p b k hj) hhere
    hfed (hdue.enters_step rfl hfed) (Nat.le_succ tokens.length)
  rw [steps_succ, if_pos (by omega)] at hstep
  have hlogged' : Logged k (p.after_batch k 0 b) id P (steps (tokens.length + 1) 0)
      (tokens ++ [token]) := by
    refine hstep.of_steps hi (fun j hj => ?_)
    unfold steps
    rw [if_neg (by omega), if_pos (by omega)]
  have hnone : ∀ j < k, (p.after_batch k 0 b).flying_to j id = [] := by
    intro j hj
    rw [after_batch_flying, hflying j hj, hsent]
    split <;> rfl
  rw [h.committed] at hcommitted
  rw [h.finished] at hfinished
  rcases hcases with hready | habsent
  · obtain ⟨r', hr', _⟩ := hready.running
    have hsteps : (tokens ++ [token]).length = tokens.length + 1 := by simp
    suffices hway : OnItsWay c k (p.after_batch k 0 b) id P (tokens ++ [token]) 0 .ready from
      .on_its_way hid hway
    refine ⟨⟨h.prompts, ?_, fun j hj hne => by omega, h.aborts, ?_, ?_⟩, hi,
      ⟨[], fun h0 => absurd rfl h0, ?_⟩, hnone, ?_⟩
    · show id ∉ p.evicted ++ vanished (p.peers 0) b.peer
      rw [List.mem_append, or_iff_left (running_not_vanished hr')]
      exact h.evicted
    · show (Function.update p.peers 0 b.peer 0).finished_for id = []
      rw [hself, hfinished]
    · show (Function.update p.peers 0 b.peer 0).committed id = _
      rw [hself, hcommitted]
    · show Ready 0 id P _ _ _ (Function.update p.peers 0 b.peer 0)
      rw [hself, hsteps]
      exact hready
    · rw [hsteps]
      exact hlogged'
  · refine .ended hid ⟨h.prompts, ?_, fun j hj hne => by omega, hnone, tokens.length + 1, ?_⟩
    · show Absent id (Function.update p.peers 0 b.peer 0)
      rw [hself]
      exact habsent
    · show Logged k _ id P _ ((Function.update p.peers 0 b.peer 0).committed id)
      rw [hself, hcommitted]
      exact hlogged'

/-- A batch at a peer whose requests have been admitted. -/
theorem Sound.after_batch (hw : c.wire.Lawful) (hk : 0 < k) (h : Sound c k p) (hi : i < k)
    (hpeer : PeerAt k i e) (he : p.peers i = executor.admitted now e)
    (hrun : process_batch c now passes e = .ok ⟨⟩ b) : Sound c k (p.after_batch k i b) := by
  refine ⟨peers_with h.peers (process_batch_keeps hpeer hi hrun), fun id => ?_⟩
  by_cases hid : id ∈ (batch_of now e).map Request.request_id
  · obtain ⟨r, hr, hready, _⟩ := batch_ready hpeer hid
    rw [← he] at hr
    obtain ⟨hne, P, tokens, hway⟩ := (h.traced id).of_ready hi hr hready
    obtain ⟨_, ⟨input, hfed, hhere⟩, _⟩ := hway.here
    rw [he] at hhere
    obtain ⟨r, token, output, hpassed, hdue, hcases⟩ :=
      (process_batch_works hw hpeer hi hhere hid hrun).passed
    have hcommitted : (p.peers i).committed id = e.committed id := by
      rw [he]
      rfl
    have hfinished : (p.peers i).finished_for id = e.finished_for id := by
      rw [he]
      rfl
    rcases hcases with ⟨hk1, hrests, hcom, hfin, flight, hsent, hleaving⟩ |
      ⟨hk1, hsent, hcom, hfin, hend⟩
    · rw [← hcommitted] at hcom
      rw [← hfinished] at hfin
      exact .on_its_way hne
        (hway.passes_on hi hk1 hfed hdue hrests hcom hfin hpassed hsent hleaving)
    · have hi0 : i = 0 := by omega
      subst hi0
      rw [← hcommitted] at hcom
      rw [← hfinished] at hfin
      exact hway.goes_round hi hk1 hne hdue hcom hfin hpassed hsent hend
  · obtain ⟨hspares, hsent, hpassed⟩ := process_batch_spares hw hpeer hi hid hrun
    rw [← he] at hspares
    exact (h.traced id).untouched hk (Untouched.after_batch hspares hsent hpassed)

/-- Fewer requests count as evicted. -/
theorem Sound.with_evicted {evicted : List String} (h : Sound c k p)
    (hfewer : ∀ id ∈ evicted, id ∈ p.evicted) : Sound c k { p with evicted } := by
  refine ⟨h.peers, fun id => ?_⟩
  cases h.traced id with
  | unseen hunseen =>
    obtain ⟨h1, h2, h3, h4, h5, h6, h7, h8⟩ := hunseen
    exact .unseen ⟨h1, fun hmem => h2 (hfewer id hmem), h3, h4, h5, h6, h7, h8⟩
  | ended hid hended =>
    obtain ⟨h1, h2, h3, h4, n, hlogged⟩ := hended
    exact .ended hid ⟨h1, h2, h3, h4, n, hlogged.of_passed rfl⟩
  | @on_its_way P tokens j place hid hway =>
    obtain ⟨⟨h1, h2, h3, h4, h5, h6⟩, hhere⟩ := hway
    suffices hway : OnItsWay c k { p with evicted } id P tokens j place from .on_its_way hid hway
    refine ⟨⟨h1, fun hmem => h2 (hfewer id hmem), h3, h4, h5, h6⟩, ?_⟩
    cases place with
    | flying =>
      obtain ⟨g1, g2, g3, g4, token, output, flight, g5, hfed, g6, hlogged⟩ := hhere
      exact ⟨g1, g2, g3, g4, token, output, flight, g5, hfed.of_passed rfl, g6,
        hlogged.of_passed rfl⟩
    | waiting =>
      obtain ⟨g1, g2, ⟨input, hfed, g3⟩, g4, hlogged⟩ := hhere
      exact ⟨g1, g2, ⟨input, hfed.of_passed rfl, g3⟩, g4, hlogged.of_passed rfl⟩
    | ready =>
      obtain ⟨g1, ⟨input, hfed, g2⟩, g3, hlogged⟩ := hhere
      exact ⟨g1, ⟨input, hfed.of_passed rfl, g2⟩, g3, hlogged.of_passed rfl⟩
    | lost =>
      obtain ⟨g1, g2, g3, g4, hlogged⟩ := hhere
      exact ⟨g1, g2, g3, g4, hlogged.of_passed rfl⟩

/-- What leaves in two steps leaves in one of them. -/
theorem vanished_between {evicted : List String} (e₁ : Executor)
    (h : id ∈ evicted ++ vanished e e') : id ∈ (evicted ++ vanished e e₁) ++ vanished e₁ e' := by
  simp only [List.mem_append, mem_vanished] at h ⊢
  rcases h with hold | ⟨hruns, hgone⟩
  · exact Or.inl (Or.inl hold)
  · cases hmid : e₁.runs id with
    | false => exact Or.inl (Or.inr ⟨hruns, rfl⟩)
    | true => exact Or.inr ⟨rfl, hgone⟩

theorem Sound.batch (hw : c.wire.Lawful) (hk : 0 < k) (h : Sound c k p) (hi : i < k)
    (hrun : process_batch c now passes (p.peers i) = .ok ⟨⟩ b) :
    Sound c k (p.after_batch k i b) := by
  have hself : (p.with_peer i (executor.admitted now (p.peers i))).peers i =
      executor.admitted now (p.peers i) := with_peer_self ..
  have hdone := (h.admitted hk hi now).after_batch hw hk hi (h.peers i hi) hself hrun
  have hsame : p.after_batch k i b =
      { (p.with_peer i (executor.admitted now (p.peers i))).after_batch k i b with
        evicted := p.evicted ++ vanished (p.peers i) b.peer } := by
    unfold Pipeline.after_batch Pipeline.log Pipeline.forward Pipeline.with_peer
    simp only [Function.update_idem]
  rw [hsame]
  refine hdone.with_evicted (fun id hmem => ?_)
  show id ∈ (p.evicted ++ vanished (p.peers i) (executor.admitted now (p.peers i))) ++
    vanished ((p.with_peer i (executor.admitted now (p.peers i))).peers i) b.peer
  rw [hself]
  exact vanished_between _ hmem

/-! ## A batch that raises -/

/-- A prefill of the first peer that is given up has ended, and no other peer has seen it. -/
theorem OnItsWay.given_up (hid : id ≠ "") (h : OnItsWay c k p id P [] 0 .ready)
    (habsent : Absent id e) (hcommitted : e.committed id = (p.peers 0).committed id)
    (hfinished : e.finished_for id = (p.peers 0).finished_for id) :
    Traced c k (p.with_peer 0 e) id := by
  obtain ⟨_, _, hflying, hlogged⟩ := h.here
  have hself : Function.update p.peers 0 e 0 = e := Function.update_self ..
  refine .ended hid ⟨h.prompts, ?_, ?_, hflying, 0, ?_⟩
  · show Absent id (Function.update p.peers 0 e 0)
    rw [hself]
    exact habsent
  · intro j hj hne
    left
    show Absent id (Function.update p.peers 0 e j) ∧
      (Function.update p.peers 0 e 0).finished_for id = [] ∧ p.aborts_to j id = []
    rw [hself, Function.update_of_ne hne, hfinished]
    exact ⟨idle_zero.mp (h.others j hj hne), h.finished, h.aborts j hj⟩
  · show Logged k _ id P _ ((Function.update p.peers 0 e 0).committed id)
    rw [hself, hcommitted, h.committed]
    exact hlogged.of_passed rfl

/-- A failed batch of prefills at the first peer, once the requests are admitted. -/
theorem Sound.after_failure (hk : 2 ≤ k) (h : Sound c k p) (hpeer : PeerAt k 0 e)
    (he : p.peers 0 = executor.admitted now e)
    (hprefills : ∀ req ∈ batch_of now e, req.is_prefill = true) (hfailed : Failed now e b) :
    Sound c k (p.with_peer 0 (give_up (batch_of now e) b.peer)) := by
  have hpos : 0 < k := by omega
  have hformed := formed_keeps hpeer now
  obtain ⟨m, m', hm, hb, htidy, hleaves⟩ := hfailed.cache
  have hb_keeps : PeerAt k 0 b.peer := by
    rw [hb]
    exact hformed.with_cache htidy
  refine ⟨peers_with h.peers (give_up_keeps hb_keeps _), fun id => ?_⟩
  by_cases hid : id ∈ (batch_of now e).map Request.request_id
  · obtain ⟨r, hr, hready, htaken⟩ := batch_ready hpeer hid
    rw [← he] at hr
    obtain ⟨hne, P, tokens, hway⟩ := (h.traced id).of_ready hpos hr hready
    obtain ⟨_, ⟨_, _, hhere⟩, _⟩ := hway.here
    obtain ⟨r', hr', _, hdue⟩ := hhere.running
    rw [hr] at hr'
    cases hr'
    have hprefill : r.is_prefill = true := hprefills (Scheduler.taken now r) htaken
    rw [hdue.is_prefill] at hprefill
    have hnil := List.eq_nil_of_length_eq_zero (of_decide_eq_true hprefill)
    subst hnil
    have hwaiting : b.peer.waiting_for id = [] := by
      have hnone := hhere.waiting
      rw [he] at hnone
      rw [hb]
      exact hnone
    obtain ⟨hfinished, hcommitted⟩ := give_up_silent id (batch_of now e) b.peer
    refine hway.given_up hne (give_up_absent hb_keeps hid hwaiting) ?_ ?_
    · rw [hcommitted, hb, he]
      rfl
    · rw [hfinished, hb, he]
      rfl
  · refine (h.traced id).untouched hpos (Untouched.with_peer ?_)
    rw [he]
    have hspares := (formed_spares hpeer hid).trans (Spares.of_cache hm (hleaves id hid))
    rw [← hb] at hspares
    exact hspares.trans (give_up_spares hb_keeps hid)

theorem Sound.raises {batch : List Request} (h : Sound c k p)
    (hraise : BatchRaises c k p i batch p') (hunsent : Unsent k i batch) : Sound c k p' := by
  obtain ⟨rfl, hk, hprefills⟩ := hunsent
  cases hraise with
  | raises now passes hi hrun =>
    rename_i b _
    have hself : (p.with_peer 0 (executor.admitted now (p.peers 0))).peers 0 =
        executor.admitted now (p.peers 0) := with_peer_self ..
    have hfailed := process_batch_failed (h.peers 0 hi) hk hprefills hrun
    have hdone := (h.admitted hi hi now).after_failure hk (h.peers 0 hi) hself hprefills
      hfailed
    have hsame : (p.with_peer 0 (give_up (batch_of now (p.peers 0)) b.peer)).forward
        (next_peer k 0) (b.sent.flatMap flights) =
        { (p.with_peer 0 (executor.admitted now (p.peers 0))).with_peer 0
            (give_up (batch_of now (p.peers 0)) b.peer) with
          evicted := p.evicted ++
            vanished (p.peers 0) (give_up (batch_of now (p.peers 0)) b.peer) } := by
      rw [hfailed.sent]
      unfold Pipeline.forward Pipeline.with_peer
      simp only [Function.update_idem, List.flatMap_nil, List.append_nil, Function.update_eq_self]
    rw [hsame]
    refine hdone.with_evicted (fun id hmem => ?_)
    show id ∈ (p.evicted ++ vanished (p.peers 0) (executor.admitted now (p.peers 0))) ++
      vanished ((p.with_peer 0 (executor.admitted now (p.peers 0))).peers 0) _
    rw [hself]
    exact vanished_between _ hmem

/-! ## Runs -/

theorem Sound.step (hw : c.wire.Lawful) (hk : 0 < k) (h : Sound c k p)
    (hstep : PipelineStep c k p p') : Sound c k p' := by
  cases hstep with
  | submit now raw hraw hid hnew hrun => exact h.submit hk hraw hid hnew hrun
  | abort rid =>
    exact h.spared hk (recv_abort_keeps (h.peers 0 hk) rid [])
      (fun id => recv_abort_spares (p.peers 0) rid [])
  | deliver now new_id hi hflight hland hrun => exact h.deliver hk hi hflight hland hrun
  | send_finished_batch => exact h.send_finished_batch hk
  | deliver_abort now new_id hi hpos habort hland hrun =>
    exact h.deliver_abort hk hi hpos habort hland hrun
  | check_timeouts now hi hrun =>
    exact h.spared hk (check_timeouts_keeps (h.peers _ hi) hrun)
      (fun id => check_timeouts_spares hrun)
  | batch now passes hi hrun => exact h.batch hw hk hi hrun

/-- A peer that has just been started has nothing of any request. -/
theorem Launched.keeps (h : Launched k i e) : PeerAt k i e := by
  obtain ⟨config, hlayers, hcache⟩ := h.cache
  refine ⟨h.first, h.last, h.scheduler_first, h.eos, ⟨?_, ?_⟩, _, hcache,
    CacheManager.init_tidy hlayers⟩
  · intro r hr
    rw [h.waiting] at hr
    cases hr
  · intro id r hr
    unfold Scheduler.get_running_request at hr
    rw [h.running] at hr
    cases hr

theorem Launched.absent (h : Launched k i e) (id : String) : Absent id e := by
  obtain ⟨config, hlayers, hcache⟩ := h.cache
  refine ⟨?_, ?_, _, hcache, rfl, ?_⟩
  · unfold Executor.waiting_for
    rw [h.waiting]
    rfl
  · unfold Executor.running Scheduler.get_running_request
    rw [h.running]
    rfl
  · unfold CacheManager.resident
    simp [CacheManager.init, Dict.has]

theorem Starts.sound (hk : 0 < k) (h : Starts k p) : Sound c k p := by
  refine ⟨fun j hj => (h.peers j hj).keeps, fun id => .unseen ⟨?_, ?_, ?_, ?_, ?_, ?_, ?_, ?_⟩⟩
  · exact h.prompts id
  · rw [h.evicted]
    exact List.not_mem_nil
  · exact fun j hj => (h.peers j hj).absent id
  · intro j _
    unfold Pipeline.flying_to
    rw [h.forwards]
    rfl
  · intro j _
    unfold Pipeline.aborts_to
    rw [h.aborts]
    rfl
  · unfold Executor.finished_for
    rw [(h.peers 0 hk).finished]
    rfl
  · unfold Executor.committed
    rw [(h.peers 0 hk).sent]
    rfl
  · intro j _
    unfold Pipeline.passed_at
    rw [h.passed]
    rfl

/-- In each run each request is accounted for. -/
theorem PipelineRun.sound {p₀ : Pipeline} (hw : c.wire.Lawful) (hk : 0 < k) (hstart : Starts k p₀)
    (hrun : PipelineRun c k p₀ p) : Sound c k p := by
  induction hrun with
  | start => exact hstart.sound hk
  | step _ hstep ih => exact ih.step hw hk hstep
  | raises _ hraise hunsent ih => exact ih.raises hraise hunsent

end parallax.server.executor
