-- One request in a pipeline: unseen, on its way around the ring, or ended. On its
-- way there is one place where its step is, and each peer has made the steps
-- that this place says. What happens for other requests leaves all of it alone.
import InferenceMesh.Server.Pipeline

open ordered_dict python state_exn
open parallax.server.cache_manager parallax.server.request parallax.server.scheduler
open parallax.p2p.message_util

namespace parallax.server.executor

variable {c : Setup} {k i j : Nat} {id : String} {P tokens : List Int} {p p' : Pipeline}
  {e e' : Executor}

/-! ## Other requests -/

/-- What happens leaves the request alone, at each peer and on its way. -/
structure Untouched (k : Nat) (id : String) (p p' : Pipeline) : Prop where
  peers : ∀ j < k, Spares id (p.peers j) (p'.peers j)
  forwards : ∀ j < k, p'.flying_to j id = p.flying_to j id
  aborts : ∀ j < k, p'.aborts_to j id = p.aborts_to j id
  prompts : p'.prompts id = p.prompts id
  passed : ∀ j < k, p'.passed_at j id = p.passed_at j id
  evicted : id ∈ p'.evicted ↔ id ∈ p.evicted

theorem mem_vanished : id ∈ vanished e e' ↔ e.runs id = true ∧ e'.runs id = false := by
  unfold vanished
  rw [List.mem_filter, Dict.mem_keys]
  simp only [Executor.runs, Dict.has_iff, Bool.not_eq_true']

theorem runs_iff_running : e.runs id = true ↔ ∃ r, e.running id = some r := Dict.has_iff

theorem runs_eq_false : e.runs id = false ↔ e.running id = none := Dict.has_eq_false

/-- A request that keeps running, or did not run, does not leave. -/
theorem Spares.not_vanished (h : Spares id e e') : id ∉ vanished e e' := by
  rw [mem_vanished]
  rintro ⟨hruns, hgone⟩
  obtain ⟨r, hr⟩ := runs_iff_running.mp hruns
  obtain ⟨r', hr', _⟩ := h.running_some hr
  rw [runs_eq_false, hr'] at hgone
  cases hgone

/-- A step of one peer that spares the request. -/
theorem Untouched.with_peer (h : Spares id (p.peers i) e) : Untouched k id p (p.with_peer i e) := by
  refine ⟨fun j _ => ?_, fun _ _ => rfl, fun _ _ => rfl, rfl, fun _ _ => rfl, ?_⟩
  · show Spares id (p.peers j) (Function.update p.peers i e j)
    by_cases hj : j = i
    · subst hj
      rw [Function.update_self]
      exact h
    · rw [Function.update_of_ne hj]
      exact .refl id _
  · show id ∈ p.evicted ++ vanished (p.peers i) e ↔ id ∈ p.evicted
    rw [List.mem_append, or_iff_left h.not_vanished]

namespace Untouched

variable {p'' : Pipeline}

theorem trans (h : Untouched k id p p') (h' : Untouched k id p' p'') : Untouched k id p p'' :=
  ⟨fun j hj => (h.peers j hj).trans (h'.peers j hj),
    fun j hj => (h'.forwards j hj).trans (h.forwards j hj),
    fun j hj => (h'.aborts j hj).trans (h.aborts j hj), h'.prompts.trans h.prompts,
    fun j hj => (h'.passed j hj).trans (h.passed j hj), h'.evicted.trans h.evicted⟩

/-- Packets of others are put on the way. -/
theorem forward (p : Pipeline) (i : Nat) {packets : List Flight}
    (h : packets.filter (fun flight => flight.req.rid = id) = []) :
    Untouched k id p (p.forward i packets) := by
  refine ⟨fun j _ => .refl id _, fun j _ => ?_, fun _ _ => rfl, rfl, fun _ _ => rfl, Iff.rfl⟩
  unfold Pipeline.flying_to Pipeline.forward
  dsimp only
  by_cases hj : j = i
  · subst hj
    rw [Function.update_self, List.filter_append, h, List.append_nil]
  · rw [Function.update_of_ne hj]

/-- Others go through the model. -/
theorem log (p : Pipeline) (i : Nat) {passed : List Passed}
    (h : passed.filter (fun x => x.request.request_id = id) = []) :
    Untouched k id p (p.log i passed) := by
  refine ⟨fun j _ => .refl id _, fun _ _ => rfl, fun _ _ => rfl, rfl, fun j _ => ?_, Iff.rfl⟩
  unfold Pipeline.passed_at Pipeline.log
  dsimp only
  by_cases hj : j = i
  · subst hj
    rw [Function.update_self, List.filter_append, h, List.append_nil]
  · rw [Function.update_of_ne hj]

/-- A packet of another request arrives. -/
theorem arrive {flight : Flight} {before after : List Flight}
    (hflight : p.forwards i = before ++ flight :: after) (hne : flight.req.rid ≠ id) :
    Untouched k id p { p with forwards := Function.update p.forwards i (before ++ after) } := by
  refine ⟨fun j _ => .refl id _, fun j _ => ?_, fun _ _ => rfl, rfl, fun _ _ => rfl, Iff.rfl⟩
  unfold Pipeline.flying_to
  dsimp only
  by_cases hj : j = i
  · subst hj
    rw [Function.update_self, hflight, List.filter_append, List.filter_append,
      List.filter_cons_of_neg (by simpa using hne)]
  · rw [Function.update_of_ne hj]

/-- An abort of another request arrives. -/
theorem arrive_abort {req : Req} {before after : List Req}
    (habort : p.aborts i = before ++ req :: after) (hne : req.rid ≠ id) :
    Untouched k id p { p with aborts := Function.update p.aborts i (before ++ after) } := by
  refine ⟨fun j _ => .refl id _, fun _ _ => rfl, fun j _ => ?_, rfl, fun _ _ => rfl, Iff.rfl⟩
  unfold Pipeline.aborts_to
  dsimp only
  by_cases hj : j = i
  · subst hj
    rw [Function.update_self, habort, List.filter_append, List.filter_append,
      List.filter_cons_of_neg (by simpa using hne)]
  · rw [Function.update_of_ne hj]

/-- Aborts of others are broadcast. -/
theorem broadcast (p : Pipeline) {reqs : List Req}
    (h : reqs.filter (fun req => req.rid = id) = []) : Untouched k id p (p.broadcast reqs) := by
  refine ⟨fun j _ => .refl id _, fun _ _ => rfl, fun j _ => ?_, rfl, fun _ _ => rfl, Iff.rfl⟩
  unfold Pipeline.aborts_to Pipeline.broadcast
  dsimp only
  split
  · rfl
  · rw [List.filter_append, h, List.append_nil]

end Untouched

/-! ## The journey of a request -/

/-- The steps that peer `j` has made while step `n` is at place `i`. -/
def steps (n i j : Nat) : Nat := if j < i then n + 1 else n

/-- A peer that has made `d` steps of the request and waits for the next one. -/
def Idle (j : Nat) (id : String) (P tokens : List Int) (d : Nat) (e : Executor) : Prop :=
  if d = 0 then Absent id e else Rests j id P tokens d e

theorem Idle.spared {d : Nat} (h : Idle j id P tokens d e) (hs : Spares id e e') :
    Idle j id P tokens d e' := by
  unfold Idle at *
  split
  · rename_i hd
    rw [if_pos hd] at h
    exact h.spared hs
  · rename_i hd
    rw [if_neg hd] at h
    exact h.spared hs

/-- The context lengths of a request at peer `i`, step by step. -/
def Pipeline.contexts (p : Pipeline) (i : Nat) (id : String) : List Nat :=
  (p.passed_at i id).map Passed.context_length

/-- The total lengths of a request at the first peer, step by step. -/
def Pipeline.total_lengths (p : Pipeline) (id : String) : List Nat :=
  (p.passed_at 0 id).map (fun x => x.request.total_length)

/-- The tokens that the last peer has made for a request. -/
def Pipeline.produced (p : Pipeline) (k : Nat) (id : String) : List Int :=
  (p.passed_at (k - 1) id).map Passed.token

/-- The history of a request with the prompt `P` whose peers have made `d j` steps. The first peer
gets the prompt and then the tokens, each other peer gets what came out of the one before it. -/
structure Logged (k : Nat) (p : Pipeline) (id : String) (P : List Int) (d : Nat → Nat)
    (made : List Int) : Prop where
  contexts : ∀ j < k, p.contexts j id = List.range' P.length (d j)
  lengths : p.total_lengths id = List.range' P.length (d 0)
  produced : p.produced k id = made
  prompts : ∀ (t : Nat) (x : Passed), (p.passed_at 0 id)[t]? = some x →
    x.request.is_prefill = decide (t = 0) ∧ x.request.input_ids = P ∧
      x.request.output_ids = made.take t
  chained : ∀ j, j + 1 < k → ∀ (t : Nat) (x : Passed), (p.passed_at (j + 1) id)[t]? = some x →
    ∃ y : Passed, (p.passed_at j id)[t]? = some y ∧ x.request.hidden_states = some y.output

/-- The input of peer `i` for step `n` is what came out of the peer before it. -/
def Fed (p : Pipeline) (id : String) (i n : Nat) (input : Tensor) : Prop :=
  i ≠ 0 → ∃ x, (p.passed_at (i - 1) id)[n]? = some x ∧ x.output = input

theorem Logged.untouched {d : Nat → Nat} {produced : List Int} (hk : 0 < k)
    (h : Logged k p id P d produced) (hu : Untouched k id p p') : Logged k p' id P d produced := by
  refine ⟨fun j hj => ?_, ?_, ?_, ?_, fun j hj => ?_⟩
  · unfold Pipeline.contexts
    rw [hu.passed j hj]
    exact h.contexts j hj
  · unfold Pipeline.total_lengths
    rw [hu.passed 0 hk]
    exact h.lengths
  · unfold Pipeline.produced
    rw [hu.passed (k - 1) (by omega)]
    exact h.produced
  · rw [hu.passed 0 hk]
    exact h.prompts
  · rw [hu.passed j (by omega), hu.passed (j + 1) hj]
    exact h.chained j hj

theorem Fed.untouched {n : Nat} {input : Tensor} (hi : i ≤ k) (h : Fed p id i n input)
    (hu : Untouched k id p p') : Fed p' id i n input := by
  intro hpos
  rw [hu.passed (i - 1) (by omega)]
  exact h hpos

/-- Nothing is known of the request. -/
structure Unseen (k : Nat) (p : Pipeline) (id : String) : Prop where
  prompts : p.prompts id = none
  evicted : id ∉ p.evicted
  absent : ∀ j < k, Absent id (p.peers j)
  forwards : ∀ j < k, p.flying_to j id = []
  aborts : ∀ j < k, p.aborts_to j id = []
  finished : (p.peers 0).finished_for id = []
  committed : (p.peers 0).committed id = []
  passed : ∀ j < k, p.passed_at j id = []

/-- Where a request on its way is. -/
inductive Place where
  /-- Its packet is on the way to the peer. -/
  | flying
  /-- It waits there for its prefill. -/
  | waiting
  /-- It is ready there. -/
  | ready
  /-- The peer had no memory for it, and dropped it. -/
  | lost
  deriving DecidableEq

/-- A request whose step is at peer `i`, as the other peers and the client see it. The place behind
the last peer is the way back to the first one. -/
structure Aside (k : Nat) (p : Pipeline) (id : String) (P tokens : List Int) (i : Nat) :
    Prop where
  prompts : p.prompts id = some P
  evicted : id ∉ p.evicted
  others : ∀ j < k, j ≠ i → Idle j id P tokens (steps tokens.length i j) (p.peers j)
  aborts : ∀ j < k, p.aborts_to j id = []
  finished : (p.peers 0).finished_for id = []
  committed : (p.peers 0).committed id = tokens

/-- The request is on its way, with these tokens so far. -/
structure OnItsWay (c : Setup) (k : Nat) (p : Pipeline) (id : String) (P tokens : List Int)
    (i : Nat) (place : Place) : Prop extends Aside k p id P tokens i where
  here : match place with
    | .flying => 0 < i ∧ i ≤ k ∧ 1 < k ∧
        (∀ j < k, j = i → Idle j id P tokens tokens.length (p.peers j)) ∧
        ∃ token output flight, Leaving c k (i - 1) id P tokens.length token output flight ∧
          Fed p id i tokens.length output ∧
          (∀ j < k, p.flying_to j id = if j = next_peer k (i - 1) then [flight] else []) ∧
          Logged k p id P (steps tokens.length i) (if i = k then tokens ++ [token] else tokens)
    | .waiting => i < k ∧ tokens = [] ∧
        (∃ input, Fed p id i tokens.length input ∧ Waits i id P tokens input (p.peers i)) ∧
        (∀ j < k, p.flying_to j id = []) ∧ Logged k p id P (steps tokens.length i) tokens
    | .ready => i < k ∧
        (∃ input, Fed p id i tokens.length input ∧
          Ready i id P tokens tokens.length input (p.peers i)) ∧
        (∀ j < k, p.flying_to j id = []) ∧ Logged k p id P (steps tokens.length i) tokens
    | .lost => i < k ∧ tokens = [] ∧ Absent id (p.peers i) ∧
        (∀ j < k, p.flying_to j id = []) ∧ Logged k p id P (steps tokens.length i) tokens

/-- The first peer is done with the request. Each other peer is told once, and is done with it
then. -/
structure Ended (k : Nat) (p : Pipeline) (id : String) (P : List Int) : Prop where
  prompts : p.prompts id = some P
  first : Absent id (p.peers 0)
  others : ∀ j < k, j ≠ 0 →
    Absent id (p.peers j) ∧ (p.peers 0).finished_for id = [] ∧ p.aborts_to j id = [] ∨
      (∃ P tokens d, Rests j id P tokens d (p.peers j)) ∧
        ((p.peers 0).finished_for id).length + (p.aborts_to j id).length = 1
  forwards : ∀ j < k, p.flying_to j id = []
  logged : ∃ n, Logged k p id P (fun _ => n) ((p.peers 0).committed id)

/-- A request is unseen, on its way, or ended. -/
inductive Traced (c : Setup) (k : Nat) (p : Pipeline) (id : String) : Prop where
  | unseen (h : Unseen k p id)
  | on_its_way {P tokens : List Int} {i : Nat} {place : Place} (hid : id ≠ "")
      (h : OnItsWay c k p id P tokens i place)
  | ended {P : List Int} (hid : id ≠ "") (h : Ended k p id P)

/-- Each peer is in place, and each request is accounted for. -/
structure Sound (c : Setup) (k : Nat) (p : Pipeline) : Prop where
  peers : ∀ i < k, PeerAt k i (p.peers i)
  traced : ∀ id, Traced c k p id

/-! ## Requests that are left alone -/

theorem Unseen.untouched (hk : 0 < k) (h : Unseen k p id) (hu : Untouched k id p p') :
    Unseen k p' id where
  prompts := hu.prompts.trans h.prompts
  evicted := fun hmem => h.evicted (hu.evicted.mp hmem)
  absent := fun j hj => (h.absent j hj).spared (hu.peers j hj)
  forwards := fun j hj => (hu.forwards j hj).trans (h.forwards j hj)
  aborts := fun j hj => (hu.aborts j hj).trans (h.aborts j hj)
  finished := (hu.peers 0 hk).finished.trans h.finished
  committed := (hu.peers 0 hk).committed.trans h.committed
  passed := fun j hj => (hu.passed j hj).trans (h.passed j hj)

theorem OnItsWay.untouched {place : Place} (hk : 0 < k) (h : OnItsWay c k p id P tokens i place)
    (hu : Untouched k id p p') : OnItsWay c k p' id P tokens i place where
  prompts := hu.prompts.trans h.prompts
  evicted := fun hmem => h.evicted (hu.evicted.mp hmem)
  others := fun j hj hne => (h.others j hj hne).spared (hu.peers j hj)
  aborts := fun j hj => (hu.aborts j hj).trans (h.aborts j hj)
  finished := (hu.peers 0 hk).finished.trans h.finished
  committed := (hu.peers 0 hk).committed.trans h.committed
  here := by
    have hhere := h.here
    cases place with
    | flying =>
      obtain ⟨hpos, hle, hlt, hidle, token, output, flight, hleaving, hfed, hflying, hlogged⟩ := hhere
      exact ⟨hpos, hle, hlt, fun j hj hji => (hidle j hj hji).spared (hu.peers j hj), token, output,
        flight, hleaving, hfed.untouched hle hu,
        fun j hj => (hu.forwards j hj).trans (hflying j hj), hlogged.untouched hk hu⟩
    | waiting =>
      obtain ⟨hi, hnil, ⟨input, hfed, hwaits⟩, hflying, hlogged⟩ := hhere
      exact ⟨hi, hnil, ⟨input, hfed.untouched (le_of_lt hi) hu, hwaits.spared (hu.peers i hi)⟩,
        fun j hj => (hu.forwards j hj).trans (hflying j hj), hlogged.untouched hk hu⟩
    | ready =>
      obtain ⟨hi, ⟨input, hfed, hready⟩, hflying, hlogged⟩ := hhere
      exact ⟨hi, ⟨input, hfed.untouched (le_of_lt hi) hu, hready.spared (hu.peers i hi)⟩,
        fun j hj => (hu.forwards j hj).trans (hflying j hj), hlogged.untouched hk hu⟩
    | lost =>
      obtain ⟨hi, hnil, habsent, hflying, hlogged⟩ := hhere
      exact ⟨hi, hnil, habsent.spared (hu.peers i hi),
        fun j hj => (hu.forwards j hj).trans (hflying j hj), hlogged.untouched hk hu⟩

theorem Ended.untouched (hk : 0 < k) (h : Ended k p id P) (hu : Untouched k id p p') :
    Ended k p' id P where
  prompts := hu.prompts.trans h.prompts
  first := h.first.spared (hu.peers 0 hk)
  others := by
    intro j hj hne
    rw [(hu.peers 0 hk).finished, hu.aborts j hj]
    rcases h.others j hj hne with ⟨habsent, howed⟩ | ⟨⟨P, tokens, d, hrests⟩, howed⟩
    · exact Or.inl ⟨habsent.spared (hu.peers j hj), howed⟩
    · exact Or.inr ⟨⟨P, tokens, d, hrests.spared (hu.peers j hj)⟩, howed⟩
  forwards := fun j hj => (hu.forwards j hj).trans (h.forwards j hj)
  logged := by
    obtain ⟨n, hlogged⟩ := h.logged
    rw [(hu.peers 0 hk).committed]
    exact ⟨n, hlogged.untouched hk hu⟩

theorem Traced.untouched (hk : 0 < k) (h : Traced c k p id) (hu : Untouched k id p p') :
    Traced c k p' id := by
  cases h with
  | unseen h => exact .unseen (h.untouched hk hu)
  | on_its_way hid h => exact .on_its_way hid (h.untouched hk hu)
  | ended hid h => exact .ended hid (h.untouched hk hu)

end parallax.server.executor
