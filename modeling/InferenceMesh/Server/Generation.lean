-- The end of a generation at the first peer (mlx_executor.py,
-- `handle_input_requests`, and scheduler.py, `check_and_update_request_status`).
-- The source tests an end-of-sequence id for its truth before it compares, so a
-- token 0 ends a generation only when the ids are given as a list.
import InferenceMesh.Server.PeerRun

open ordered_dict python state_exn
open parallax.server.cache_manager parallax.server.request parallax.server.scheduler

namespace parallax.server.executor

/-! ## Streams -/

section streams

variable {must seen : Nat → Int → Bool}

/-- The tokens of a stream up to the first stop, each with the mark of the stop. The numbering
starts with `n`. -/
def generated (stop : Nat → Int → Bool) : Nat → List Int → List (Int × Bool)
  | _, [] => []
  | n, t :: ts => if stop n t then [(t, true)] else (t, false) :: generated stop (n + 1) ts

/-- The stream stops. -/
def stops (stop : Nat → Int → Bool) (n : Nat) (ts : List Int) : Bool :=
  (generated stop n ts).any Prod.snd

/-- The first stop of a stream is the token `t` behind the tokens `pre`. -/
def FirstStop (stop : Nat → Int → Bool) (n : Nat) (ts pre : List Int) (t : Int) : Prop :=
  (pre ++ [t]) <+: ts ∧ stop (n + pre.length) t = true ∧
    ∀ pre' t', (pre' ++ [t']) <+: pre → stop (n + pre'.length) t' = false

theorem firstStop_nil {stop : Nat → Int → Bool} {n : Nat} {pre : List Int} {t : Int} :
    ¬ FirstStop stop n [] pre t := by
  rintro ⟨h, _⟩
  have hnil := List.prefix_nil.mp h
  exact List.append_ne_nil_of_right_ne_nil _ (List.cons_ne_nil _ _) hnil

theorem firstStop_here {stop : Nat → Int → Bool} {n : Nat} {ts pre : List Int} {t u : Int}
    (hstop : stop n t = true) : FirstStop stop n (t :: ts) pre u ↔ pre = [] ∧ u = t := by
  constructor
  · rintro ⟨hpre, _, hbefore⟩
    cases pre with
    | nil =>
      have hhead := (List.cons_prefix_cons.mp hpre).1
      exact ⟨rfl, hhead⟩
    | cons v pre =>
      obtain ⟨rfl, _⟩ := List.cons_prefix_cons.mp hpre
      have hno := hbefore [] v (List.cons_prefix_cons.mpr ⟨rfl, List.nil_prefix⟩)
      rw [List.length_nil, Nat.add_zero, hstop] at hno
      cases hno
  · rintro ⟨rfl, rfl⟩
    refine ⟨List.cons_prefix_cons.mpr ⟨rfl, List.nil_prefix⟩, hstop, ?_⟩
    intro pre' t' h
    exact absurd (List.prefix_nil.mp h)
      (List.append_ne_nil_of_right_ne_nil _ (List.cons_ne_nil _ _))

theorem firstStop_later {stop : Nat → Int → Bool} {n : Nat} {ts pre : List Int} {t u : Int}
    (hgoes : stop n t = false) : FirstStop stop n (t :: ts) pre u ↔
      ∃ pre', pre = t :: pre' ∧ FirstStop stop (n + 1) ts pre' u := by
  constructor
  · rintro ⟨hpre, hstop, hbefore⟩
    cases pre with
    | nil =>
      obtain ⟨rfl, _⟩ := List.cons_prefix_cons.mp hpre
      rw [List.length_nil, Nat.add_zero, hgoes] at hstop
      cases hstop
    | cons v pre =>
      obtain ⟨rfl, htail⟩ := List.cons_prefix_cons.mp hpre
      refine ⟨pre, rfl, htail, ?_, ?_⟩
      · rw [Nat.add_assoc, Nat.add_comm 1]
        exact hstop
      · intro pre' t' h
        have hno := hbefore (v :: pre') t' (List.cons_prefix_cons.mpr ⟨rfl, h⟩)
        rw [Nat.add_assoc, Nat.add_comm 1]
        exact hno
  · rintro ⟨pre', rfl, htail, hstop, hbefore⟩
    refine ⟨List.cons_prefix_cons.mpr ⟨rfl, htail⟩, ?_, ?_⟩
    · rw [Nat.add_assoc, Nat.add_comm 1] at hstop
      exact hstop
    · intro pre'' t' h
      cases pre'' with
      | nil =>
        obtain ⟨rfl, _⟩ := List.cons_prefix_cons.mp h
        exact hgoes
      | cons v pre'' =>
        obtain ⟨rfl, h'⟩ := List.cons_prefix_cons.mp h
        have hno := hbefore pre'' t' h'
        rw [Nat.add_assoc, Nat.add_comm 1] at hno
        exact hno

/-- When only stops are seen, a stream ends as it must just when its first stop is seen. -/
theorem generated_eq_iff (h : ∀ n t, seen n t = true → must n t = true) (n : Nat)
    (ts : List Int) : generated must n ts = generated seen n ts ↔
      ∀ pre t, FirstStop must n ts pre t → seen (n + pre.length) t = true := by
  induction ts generalizing n with
  | nil => exact ⟨fun _ _ _ hfirst => absurd hfirst firstStop_nil, fun _ => rfl⟩
  | cons t ts ih =>
    unfold generated
    cases hmust : must n t with
    | true =>
      have hfirst : (∀ pre u, FirstStop must n (t :: ts) pre u → seen (n + pre.length) u = true) ↔
          seen n t = true := by
        constructor
        · intro hall
          exact hall [] t ((firstStop_here hmust).mpr ⟨rfl, rfl⟩)
        · rintro hseen pre u hfirst
          obtain ⟨rfl, rfl⟩ := (firstStop_here hmust).mp hfirst
          exact hseen
      rw [hfirst]
      cases seen n t <;> simp
    | false =>
      have hnot : seen n t = false := by
        cases hseen : seen n t with
        | false => rfl
        | true =>
          rw [h n t hseen] at hmust
          cases hmust
      rw [hnot, if_neg Bool.false_ne_true, if_neg Bool.false_ne_true, List.cons.injEq, ih]
      simp only [true_and]
      constructor
      · intro hall pre u hfirst
        obtain ⟨pre', rfl, hfirst'⟩ := (firstStop_later hmust).mp hfirst
        have hseen := hall pre' u hfirst'
        rw [Nat.add_assoc, Nat.add_comm 1] at hseen
        exact hseen
      · intro hall pre u hfirst
        have hseen := hall (t :: pre) u ((firstStop_later hmust).mpr ⟨pre, rfl, hfirst⟩)
        rw [Nat.add_assoc, Nat.add_comm 1]
        exact hseen

end streams

/-! ## Stops -/

/-- The limits of a request: the output or the whole sequence is full with one more token. -/
def at_limit (req : Request) (n : Nat) : Bool :=
  match req.kind with
  | .initial max_new_tokens max_total_length =>
    decide (req.output_length + (n + 1) ≥ max_new_tokens) ||
      decide (req.total_length + (n + 1) ≥ max_total_length)
  | .intermediate _ _ _ => false

/-- A token that ends a sequence: the model or the tokenizer says so. -/
def is_eos (s : Scheduler) (token : Int) : Bool :=
  s.eos_token_id.any (fun e => e.matches_token (some token)) ||
    decide (s.tokenizer_eos_token_id = some token)

/-- The request has to stop with the token, after `n` others. -/
def must_stop (s : Scheduler) (req : Request) (n : Nat) (token : Int) : Bool :=
  (!req.sampling_params.ignore_eos && is_eos s token) || at_limit req n

/-- A token whose end-of-sequence id passes the test for its truth. -/
def seen_eos (s : Scheduler) (token : Int) : Bool :=
  s.eos_token_id.any (fun e => e.truthy && e.matches_token (some token)) ||
    s.tokenizer_eos_token_id.any (fun e => e ≠ 0 && some token = some e)

/-- The request is stopped by the token, after `n` others. -/
def seen_stop (s : Scheduler) (req : Request) (n : Nat) (token : Int) : Bool :=
  (!req.sampling_params.ignore_eos && seen_eos s token) || at_limit req n

/-- The token 0 is in a list of end-of-sequence ids. -/
def zero_listed (s : Scheduler) : Bool :=
  match s.eos_token_id with
  | some (.many ids) => decide (0 ∈ ids)
  | _ => false

theorem seen_eos_iff (s : Scheduler) (token : Int) : seen_eos s token = true ↔
    is_eos s token = true ∧ (token = 0 → zero_listed s = true) := by
  unfold seen_eos is_eos zero_listed EosTokenId.truthy EosTokenId.matches_token
  cases s.eos_token_id with
  | none => cases s.tokenizer_eos_token_id <;> simp <;> grind
  | some eos =>
    cases eos with
    | one id => cases s.tokenizer_eos_token_id <;> simp <;> grind
    | many ids => cases s.tokenizer_eos_token_id <;> simp <;> grind

theorem seen_of_must {s : Scheduler} {req : Request} {n : Nat} {token : Int}
    (h : must_stop s req n token = true) : seen_stop s req n token = true ↔
      (token = 0 → zero_listed s = true ∨ at_limit req n = true) := by
  have heos := seen_eos_iff s token
  unfold must_stop at h
  unfold seen_stop
  cases hlimit : at_limit req n with
  | true => simp
  | false =>
    rw [hlimit, Bool.or_false, Bool.and_eq_true] at h
    rw [Bool.or_false, Bool.and_eq_true, heos]
    simp [h.1, h.2]

theorem must_of_seen {s : Scheduler} {req : Request} {n : Nat} {token : Int}
    (h : seen_stop s req n token = true) : must_stop s req n token = true := by
  unfold seen_stop at h
  unfold must_stop
  rw [Bool.or_eq_true, Bool.and_eq_true] at *
  exact h.imp (fun hs => ⟨hs.1, ((seen_eos_iff s token).mp hs.2).1⟩) (fun hl => hl)

/-! ## A request in the middle of its stream -/

/-- The request with more tokens committed to it. -/
structure Continues (r : Request) (committed : List Int) (q : Request) : Prop where
  outputs : q.output_ids = r.output_ids ++ committed
  kind : q.kind = r.kind
  prompt_len : q.prompt_len = r.prompt_len
  sampling_params : q.sampling_params = r.sampling_params
  abort : q.abort = false

theorem continues_core {r q q' : Request} {committed : List Int} (h : Continues r committed q)
    (hcore : core q' = core q) : Continues r committed q' := by
  refine ⟨?_, ?_, ?_, ?_, ?_⟩
  · exact (congrArg Request.output_ids hcore).trans h.outputs
  · exact (congrArg Request.kind hcore).trans h.kind
  · exact (congrArg Request.prompt_len hcore).trans h.prompt_len
  · exact (congrArg Request.sampling_params hcore).trans h.sampling_params
  · exact (congrArg Request.abort hcore).trans h.abort

theorem continues_token {r q : Request} {committed : List Int} (h : Continues r committed q)
    (hopen : q.is_finished = false) (token : Int) (routing_table : List String) :
    Continues r (committed ++ [token]) (with_token q token routing_table) := by
  unfold with_token Request.commit_new_token
  rw [hopen, if_neg Bool.false_ne_true]
  refine ⟨?_, h.kind, h.prompt_len, h.sampling_params, h.abort⟩
  show q.output_ids ++ [token] = _
  rw [h.outputs, List.append_assoc]

/-- A token stops a request just when its stop is seen. -/
theorem stopped_with_token (s : Scheduler) {r q : Request} {committed : List Int}
    (hinitial : r.is_initial = true) {token : Int} (h : Continues r (committed ++ [token]) q) :
    stopped s q = seen_stop s r committed.length token := by
  have hlast : q.output_ids.getLast? = some token := by
    rw [h.outputs, ← List.append_assoc, List.getLast?_concat]
  have hlen : q.output_length = r.output_length + (committed.length + 1) := by
    unfold Request.output_length
    rw [h.outputs]
    simp only [List.length_append, List.length_singleton]
  cases hkind : r.kind with
  | intermediate position hidden_states next_token_id =>
    unfold Request.is_initial at hinitial
    rw [hkind] at hinitial
    cases hinitial
  | initial max_new_tokens max_total_length =>
    have hq : q.kind = .initial max_new_tokens max_total_length := h.kind.trans hkind
    have htotal : q.total_length = r.total_length + (committed.length + 1) := by
      unfold Request.total_length
      rw [hq, hkind, h.prompt_len, hlen, Nat.add_assoc]
    unfold stopped Scheduler.finishing_status seen_stop seen_eos at_limit
    rw [hq, hkind, hlast, htotal, hlen, h.sampling_params, h.abort]
    dsimp only
    generalize (s.eos_token_id.any fun e => e.truthy && e.matches_token (some token)) = eos
    generalize (s.tokenizer_eos_token_id.any
      fun e => decide (e ≠ 0) && decide (some token = some e)) = tokenizer_eos
    cases eos <;> cases tokenizer_eos <;> cases r.sampling_params.ignore_eos <;> simp <;>
      split_ifs <;> simp_all

/-- A request that is stopped without an abort gets a finished status. -/
theorem with_status_finished {s : Scheduler} {q : Request} (hopen : q.is_finished = false)
    (habort : q.abort = false) (h : stopped s q = true) :
    (with_status s q).status = .FINISHED_EOS ∨ (with_status s q).status = .FINISHED_MAX_LENGTH := by
  unfold stopped at h
  rw [habort, Bool.or_false] at h
  obtain ⟨new_status, hmet⟩ := Option.isSome_iff_exists.mp h
  have hstatus : new_status = .FINISHED_EOS ∨ new_status = .FINISHED_MAX_LENGTH := by
    unfold Scheduler.finishing_status at hmet
    dsimp only at hmet
    split at hmet
    · cases hmet
    · split_ifs at hmet <;> cases hmet <;> simp
  unfold with_status Request.update_status
  rw [hmet, hopen]
  exact hstatus

/-! ## Runs -/

def IpcMessage.mark : IpcMessage → Option (Int × Bool)
  | .token _ next_token_id _ eos length => some (next_token_id, eos || length)
  | .error _ _ _ _ => none

/-- The tokens of a request that the client was sent, each with the mark of the last one. -/
def Executor.tokens_sent (e : Executor) (id : String) : List (Int × Bool) :=
  (e.sent_for id).filterMap IpcMessage.mark

/-- The request runs, and some tokens are committed to it. -/
structure Serving (id : String) (r : Request) (committed : List Int) (e : Executor) : Prop where
  running : ∃ q, e.running id = some q ∧ Continues r committed q
  cached : e.has_request id = true
  waiting : id ∉ e.waiting_ids

/-- The request is nowhere. -/
structure Gone (id : String) (e : Executor) : Prop where
  running : e.running id = none
  resident : e.resident id = false
  waiting : id ∉ e.waiting_ids

/-- Runs in which the tokens of a stream come back for one request, with any steps for other
requests in between. -/
inductive Generates (id : String) : Loop → List Int → Loop → Prop where
  | done (l : Loop) : Generates id l [] l
  | token {l l' l'' : Loop} {now position : Nat} {packet : Request} {rest : List Request}
      {hidden_states : Option Tensor} {t : Int} {ts : List Int}
      (hreceived : l.received = packet :: rest) (hid : packet.request_id = id)
      (hkind : packet.kind = .intermediate position hidden_states (some t))
      (hstep : Step l (.handle now) l') (hrun : Generates id l' ts l'') :
      Generates id l (t :: ts) l''
  | other {l l' l'' : Loop} {event : Event} {ts : List Int} (hstep : Step l event l')
      (hother : ¬ About id l event) (hrun : Generates id l' ts l'') : Generates id l ts l''

/-! ## One token -/

section token

variable {now : Nat} {e e' : Executor} {id : String} {r q packet : Request} {committed : List Int}
  {t : Int}

theorem tokens_sent_append {message : IpcMessage} {mark : Int × Bool} (hid : message.rid = id)
    (hmark : message.mark = some mark) :
    (e.send_to_ipc message).tokens_sent id = e.tokens_sent id ++ [mark] := by
  unfold Executor.tokens_sent Executor.sent_for Executor.send_to_ipc
  simp [List.filter_append, hid, hmark]

theorem told_of_pass_on (hid : packet.request_id = id) :
    ((e.pass_on packet).told_of id).length =
      (e.told_of id).length + if e.is_last_peer then 0 else 1 := by
  unfold Executor.pass_on
  cases e.is_last_peer with
  | true => rfl
  | false =>
    unfold Executor.told_of Executor.append_finished
    simp [List.filter_append, hid, Nat.add_assoc]

theorem pass_on_cases (P : Executor → Prop) (h : P e) (h' : P (e.append_finished packet)) :
    P (e.pass_on packet) := by
  unfold Executor.pass_on
  split
  · exact h
  · exact h'

theorem ends_here_gone (hwait : id ∉ e.waiting_ids) : Gone id (e.ends_here id) := by
  unfold Executor.ends_here
  refine ⟨?_, ?_, hwait⟩
  · show (e.scheduler.running_requests.erase id).get? id = none
    simp
  · rw [Executor.release_request_resident]
    simp

theorem goes_on_running : (e.goes_on now q).running q.request_id =
    some { q with ready_for_next_step := true, last_updated_time := some now } := by
  unfold Executor.goes_on Executor.running Scheduler.get_running_request
  rw [Dict.get?_moveToEnd, Dict.get?_insert_self]

/-- What a token does: it stops the request, or the request goes on with it. -/
inductive Advance (id : String) (r : Request) (committed : List Int) (t : Int) (e e' : Executor) :
    Prop where
  | stopped (hstop : seen_stop e.scheduler r committed.length t = true) (hgone : Gone id e')
      (hsent : e'.tokens_sent id = e.tokens_sent id ++ [(t, true)])
      (htold : (e'.told_of id).length =
        (e.told_of id).length + if e.is_last_peer then 0 else 1)
  | goes_on (hgoes : seen_stop e.scheduler r committed.length t = false)
      (hserving : Serving id r (committed ++ [t]) e')
      (hsent : e'.tokens_sent id = e.tokens_sent id ++ [(t, false)])
      (htold : e'.told_of id = e.told_of id)

theorem commit_token_advances (hpeer : FirstPeer e) (hinitial : r.is_initial = true)
    (hserving : Serving id r committed e) (hid : packet.request_id = id)
    (hq : e.running packet.request_id = some q) (hcontinues : Continues r committed q)
    (hrun : commit_token now packet q t e = .ok ⟨⟩ e') : Advance id r committed t e e' := by
  obtain ⟨hqid, hopen⟩ := hpeer.running.running _ _ hq
  have hnext := continues_token hcontinues hopen t packet.routing_table
  obtain ⟨hdecode, hunfinished⟩ := with_token_decodes hopen t packet.routing_table
  have hrid : (with_token q t packet.routing_table).request_id = id := by
    rw [with_token_id, hqid, hid]
  rw [commit_token.spec hpeer hq rfl] at hrun
  generalize with_token q t packet.routing_table = next at *
  have hstop := stopped_with_token e.scheduler hinitial hnext
  cases hstopped : stopped e.scheduler next with
  | true =>
    rw [hstopped, if_pos rfl, hid] at hrun
    cases hrun
    rw [hstopped] at hstop
    have hgone : Gone id ((e.put_running next).ends_here id) := ends_here_gone hserving.waiting
    refine .stopped hstop.symm ?_ ?_ ?_
    · have hpassed : Gone id (((e.put_running next).ends_here id).pass_on packet) :=
        pass_on_cases (Gone id) hgone ⟨hgone.running, hgone.resident, hgone.waiting⟩
      exact ⟨hpassed.running, hpassed.resident, hpassed.waiting⟩
    · have hmark : (token_message packet (with_status e.scheduler next) t).mark =
          some (t, true) := by
        unfold token_message IpcMessage.mark
        rcases with_status_finished hunfinished hnext.abort hstopped with h | h <;> simp [h]
      have hmessage : (token_message packet (with_status e.scheduler next) t).rid = id := hid
      rw [tokens_sent_append hmessage hmark]
      congr 1
      exact pass_on_cases (fun x => x.tokens_sent id = e.tokens_sent id) rfl rfl
    · exact told_of_pass_on hid
  | false =>
    rw [hstopped, if_neg Bool.false_ne_true] at hrun
    cases hrun
    rw [hstopped] at hstop
    refine .goes_on hstop.symm
      ⟨⟨{ next with ready_for_next_step := true, last_updated_time := some now }, ?_, ?_⟩,
        hserving.cached, hserving.waiting⟩ ?_ rfl
    · rw [← hrid]
      exact goes_on_running
    · exact continues_core hnext rfl
    · have hmark : (token_message packet next t).mark = some (t, false) := by
        unfold token_message IpcMessage.mark
        unfold Request.is_decoding at hdecode
        simp [of_decide_eq_true hdecode]
      have hmessage : (token_message packet next t).rid = id := hid
      exact tokens_sent_append hmessage hmark

theorem commit_token_settings (hpeer : FirstPeer e) (hq : e.running packet.request_id = some q)
    (hrun : commit_token now packet q t e = .ok ⟨⟩ e') :
    Scheduler.SameSettings e.scheduler e'.scheduler ∧ e'.is_last_peer = e.is_last_peer := by
  rw [commit_token.spec hpeer hq rfl] at hrun
  cases hrun
  split
  · exact pass_on_cases (fun x => Scheduler.SameSettings e.scheduler x.scheduler ∧
      x.is_last_peer = e.is_last_peer) ⟨⟨rfl⟩, rfl⟩ ⟨⟨rfl⟩, rfl⟩
  · exact ⟨⟨rfl⟩, rfl⟩

end token

/-! ## A whole stream -/

/-- What a stream of tokens owes to a request that has some tokens already: the client gets the
tokens up to the first stop, with the mark of the stop at the last one, and the request is then
gone and the other peers are told once. Without a stop it goes on running. -/
structure Ends (stop : Nat → Int → Bool) (id : String) (r : Request) (committed ts : List Int)
    (e e' : Executor) : Prop where
  sent : e'.tokens_sent id = e.tokens_sent id ++ generated stop committed.length ts
  ended : stops stop committed.length ts = true → Gone id e' ∧
    (e'.told_of id).length = (e.told_of id).length + if e.is_last_peer then 0 else 1
  running : stops stop committed.length ts = false →
    (∃ q, e'.running id = some q ∧ q.is_finished = false ∧
      q.output_ids = r.output_ids ++ (committed ++ ts)) ∧ e'.told_of id = e.told_of id

section run

variable {id : String} {r : Request} {l l' : Loop} {ts : List Int}

theorem undisturbed_gone {e e' : Executor} (h : Undisturbed id e e') (hgone : Gone id e) :
    Gone id e' := by
  refine ⟨?_, h.resident.trans hgone.resident, h.waiting⟩
  have hrun := h.running
  rw [hgone.running] at hrun
  exact Option.map_eq_none_iff.mp hrun

theorem undisturbed_serving {e e' : Executor} {committed : List Int} (h : Undisturbed id e e')
    (hserving : Serving id r committed e) : Serving id r committed e' := by
  obtain ⟨q, hq, hcontinues⟩ := hserving.running
  have hrun := h.running
  rw [hq] at hrun
  obtain ⟨q', hq', hcore⟩ := Option.map_eq_some_iff.mp hrun
  exact ⟨⟨q', hq', continues_core hcontinues hcore⟩, h.cached.trans hserving.cached, h.waiting⟩

theorem undisturbed_tokens {e e' : Executor} (h : Undisturbed id e e') :
    e'.tokens_sent id = e.tokens_sent id := by
  unfold Executor.tokens_sent
  rw [h.sent]

theorem seen_stop_settings {s s' : Scheduler} (h : Scheduler.SameSettings s s') (r : Request) :
    seen_stop s' r = seen_stop s r := by
  funext n t
  unfold seen_stop seen_eos
  rw [h.eos_token_id, h.tokenizer_eos_token_id]

theorem handle_step {now : Nat} {packet : Request} {rest : List Request}
    (hreceived : l.received = packet :: rest) (hstep : Step l (.handle now) l') :
    handle_first now packet l.peer = .ok ⟨⟩ l'.peer ∧ l'.received = rest := by
  cases hstep with
  | handle hrun =>
    cases hreceived
    exact ⟨hrun, rfl⟩

/-- A request that is gone gets no more tokens. -/
theorem generates_gone (h : Generates id l ts l') (hpeer : FirstPeer l.peer)
    (hgone : Gone id l.peer) : Gone id l'.peer ∧ l'.peer.tokens_sent id = l.peer.tokens_sent id ∧
      l'.peer.told_of id = l.peer.told_of id := by
  induction h with
  | done l => exact ⟨hgone, rfl, rfl⟩
  | token hreceived hid hkind hstep _ ih =>
    have hpeer' := step_first_peer hpeer hstep
    obtain ⟨hrun, _⟩ := handle_step hreceived hstep
    rw [handle_first_packet hkind, handle_token_eq, hid, hgone.running] at hrun
    have heq := (EStateM.Result.ok.inj hrun).2
    rw [← heq] at hpeer' ih
    exact ih hpeer' hgone
  | other hstep hother _ ih =>
    have hundisturbed := step_undisturbed hpeer hgone.waiting (by
      intro hruns
      unfold Executor.runs Dict.has at hruns
      have hnone := hgone.running
      unfold Executor.running Scheduler.get_running_request at hnone
      rw [hnone] at hruns
      cases hruns) hstep hother
    obtain ⟨hgone', hsent, htold⟩ := ih (step_first_peer hpeer hstep)
      (undisturbed_gone hundisturbed hgone)
    exact ⟨hgone', hsent.trans (undisturbed_tokens hundisturbed),
      htold.trans hundisturbed.told⟩

/-- The request ends with the stops that are seen. -/
theorem generates_ends (h : Generates id l ts l') (hpeer : FirstPeer l.peer)
    (hinitial : r.is_initial = true) {committed : List Int}
    (hserving : Serving id r committed l.peer) :
    Ends (seen_stop l.peer.scheduler r) id r committed ts l.peer l'.peer := by
  induction h generalizing committed with
  | done l =>
    obtain ⟨q, hq, hcontinues⟩ := hserving.running
    refine ⟨by simp [generated], by simp [stops, generated], fun _ => ⟨⟨q, hq, ?_, ?_⟩, rfl⟩⟩
    · exact (hpeer.running.running _ _ hq).2
    · rw [List.append_nil]
      exact hcontinues.outputs
  | @token l l' l'' now position packet rest hidden_states t ts hreceived hid hkind hstep hrest ih =>
    obtain ⟨q, hq, hcontinues⟩ := hserving.running
    have hq' : l.peer.running packet.request_id = some q := by
      rw [hid]
      exact hq
    obtain ⟨hrun, _⟩ := handle_step hreceived hstep
    rw [handle_first_packet hkind, handle_token_eq, hq'] at hrun
    dsimp only at hrun
    rw [if_pos (by rw [hid]; exact hserving.cached)] at hrun
    have hpeer' := step_first_peer hpeer hstep
    obtain ⟨hset, hlast⟩ := commit_token_settings hpeer hq' hrun
    cases commit_token_advances hpeer hinitial hserving hid hq' hcontinues hrun with
    | stopped hstop hgone hsent htold =>
      obtain ⟨hgone', hsent', htold'⟩ := generates_gone hrest hpeer' hgone
      have hgen : generated (seen_stop l.peer.scheduler r) committed.length (t :: ts) =
          [(t, true)] := by
        unfold generated
        rw [hstop, if_pos rfl]
      refine ⟨?_, fun _ => ⟨hgone', ?_⟩, ?_⟩
      · rw [hgen, hsent', hsent]
      · rw [htold', htold]
      · intro hno
        unfold stops at hno
        rw [hgen] at hno
        cases hno
    | goes_on hgoes hserving' hsent htold =>
      have hends := ih hpeer' hserving'
      rw [seen_stop_settings hset] at hends
      have hlen : (committed ++ [t]).length = committed.length + 1 := by simp
      have hgen : generated (seen_stop l.peer.scheduler r) committed.length (t :: ts) =
          (t, false) :: generated (seen_stop l.peer.scheduler r) (committed ++ [t]).length ts := by
        rw [generated, hgoes, if_neg Bool.false_ne_true, hlen]
      have hstops : stops (seen_stop l.peer.scheduler r) committed.length (t :: ts) =
          stops (seen_stop l.peer.scheduler r) (committed ++ [t]).length ts := by
        unfold stops
        rw [hgen, List.any_cons, Bool.false_or]
      refine ⟨?_, ?_, ?_⟩
      · rw [hgen, hends.sent, hsent, List.append_assoc]
        rfl
      · rw [hstops]
        intro hstop
        obtain ⟨hgone, hcount⟩ := hends.ended hstop
        refine ⟨hgone, ?_⟩
        rw [hcount, htold, hlast]
      · rw [hstops]
        intro hgo
        obtain ⟨⟨q', hrunning, hopen, houtputs⟩, hcount⟩ := hends.running hgo
        refine ⟨⟨q', hrunning, hopen, ?_⟩, hcount.trans htold⟩
        rw [houtputs, List.append_assoc]
        rfl
  | other hstep hother _ ih =>
    have hundisturbed := step_undisturbed hpeer hserving.waiting (fun _ => hserving.cached) hstep
      hother
    have hends := ih (step_first_peer hpeer hstep) (undisturbed_serving hundisturbed hserving)
    rw [seen_stop_settings hundisturbed.settings] at hends
    refine ⟨?_, ?_, ?_⟩
    · rw [hends.sent, undisturbed_tokens hundisturbed]
    · intro hstop
      obtain ⟨hgone, hcount⟩ := hends.ended hstop
      refine ⟨hgone, ?_⟩
      rw [hcount, hundisturbed.told, hundisturbed.last_peer]
    · intro hgo
      obtain ⟨hrunning, hcount⟩ := hends.running hgo
      exact ⟨hrunning, hcount.trans hundisturbed.told⟩

end run

/-! ## The first stop -/

/-- A token as it comes back from the last peer. -/
def token_packet (id : String) (token : Int) : Request where
  request_id := id
  status := .DECODING
  kind := .intermediate 0 (some [[0]]) (some token)

theorem token_packet_handled {e : Executor} (hpeer : FirstPeer e) (now : Nat) (id : String)
    (token : Int) : ∃ e', handle_first now (token_packet id token) e = .ok ⟨⟩ e' := by
  rw [handle_first_packet (show (token_packet id token).kind = _ from rfl), handle_token_eq]
  cases hq : e.running (token_packet id token).request_id with
  | none => exact ⟨e, rfl⟩
  | some q =>
    dsimp only
    split
    · exact ⟨_, commit_token.spec hpeer hq rfl⟩
    · exact ⟨e, rfl⟩

/-- The tokens of any stream can come back one after the other. -/
theorem generates_exists {e : Executor} (hpeer : FirstPeer e) (id : String) (ts : List Int) :
    ∃ l', Generates id ⟨e, []⟩ ts l' := by
  induction ts generalizing e with
  | nil => exact ⟨_, .done _⟩
  | cons t ts ih =>
    obtain ⟨e', hrun⟩ := token_packet_handled hpeer 0 id t
    have hreceive : Step ⟨e, []⟩ (.packets [token_packet id t]) ⟨e, [token_packet id t]⟩ :=
      .packets (by simp [token_packet, Request.is_initial])
    have hhandle : Step ⟨e, [token_packet id t]⟩ (.handle 0) ⟨e', []⟩ := .handle hrun
    obtain ⟨l', hrest⟩ := ih (step_first_peer hpeer hhandle)
    exact ⟨l', .other hreceive (fun h => h) (.token rfl rfl rfl hhandle hrest)⟩

/-- Whatever else the peer does, the tokens of the stream can come back, and the request ends as
it must. -/
def GenerationStops (e : Executor) (id : String) (r : Request) (ts : List Int) : Prop :=
  (∃ l', Generates id ⟨e, []⟩ ts l') ∧
    ∀ l', Generates id ⟨e, []⟩ ts l' → Ends (must_stop e.scheduler r) id r [] ts e l'.peer

/-- A running request of the first peer. -/
structure Runs (e : Executor) (id : String) (r : Request) : Prop where
  running : e.running id = some r
  initial : r.is_initial = true
  abort : r.abort = false
  cached : e.has_request id = true
  waiting : id ∉ e.waiting_ids

theorem serving_of_runs {e : Executor} {id : String} {r : Request} (h : Runs e id r) :
    Serving id r [] e :=
  ⟨⟨r, h.running, (List.append_nil _).symm, rfl, rfl, rfl, h.abort⟩, h.cached, h.waiting⟩

/-- A generation stops where it must just when its first stop is not a token 0 that ends a
sequence only as a single id: a list of ids has it, or a limit is reached with it. -/
theorem generation_stops_iff (e : Executor) (id : String) (r : Request) (ts : List Int)
    (hpeer : FirstPeer e) (hruns : Runs e id r) : GenerationStops e id r ts ↔
      ∀ pre t, FirstStop (must_stop e.scheduler r) 0 ts pre t → t = 0 →
        zero_listed e.scheduler = true ∨ at_limit r pre.length = true := by
  have hserving := serving_of_runs hruns
  have hends : ∀ l', Generates id ⟨e, []⟩ ts l' →
      Ends (seen_stop e.scheduler r) id r [] ts e l'.peer :=
    fun l' hrun => generates_ends hrun hpeer hruns.initial hserving
  have hsame : generated (must_stop e.scheduler r) 0 ts = generated (seen_stop e.scheduler r) 0 ts ↔
      ∀ pre t, FirstStop (must_stop e.scheduler r) 0 ts pre t →
        seen_stop e.scheduler r (0 + pre.length) t = true :=
    generated_eq_iff (fun n t h => must_of_seen h) 0 ts
  constructor
  · rintro ⟨⟨l', hrun⟩, hall⟩ pre t hfirst
    have hsent := (hall l' hrun).sent
    rw [(hends l' hrun).sent] at hsent
    have hseen := hsame.mp (List.append_cancel_left hsent).symm pre t hfirst
    rw [Nat.zero_add] at hseen
    have hmust := hfirst.2.1
    rw [Nat.zero_add] at hmust
    exact (seen_of_must hmust).mp hseen
  · intro hall
    have hgen : generated (must_stop e.scheduler r) 0 ts =
        generated (seen_stop e.scheduler r) 0 ts := by
      rw [hsame]
      intro pre t hfirst
      have hmust := hfirst.2.1
      rw [Nat.zero_add] at hmust ⊢
      exact (seen_of_must hmust).mpr (hall pre t hfirst)
    have hstops : stops (must_stop e.scheduler r) 0 ts = stops (seen_stop e.scheduler r) 0 ts := by
      unfold stops
      rw [hgen]
    refine ⟨generates_exists hpeer id ts, ?_⟩
    intro l' hrun
    obtain ⟨hsent, hended, hrunning⟩ := hends l' hrun
    refine ⟨?_, ?_, ?_⟩
    · rw [hsent]
      exact congrArg _ hgen.symm
    · intro hstop
      exact hended (hstops.symm.trans hstop)
    · intro hgo
      exact hrunning (hstops.symm.trans hgo)

/-- A first peer with the given end-of-sequence ids that runs two short prompts. -/
def peer_with_eos (eos : EosTokenId) : Executor :=
  { first_peer with scheduler := { first_peer.scheduler with eos_token_id := some eos } }

/-- The first of them. -/
def short_running : Request := { short_prompt "a" with last_updated_time := some 0 }

theorem peer_with_eos_first (eos : EosTokenId) : FirstPeer (peer_with_eos eos) := by
  have hwaiting : Holds (fun req => req.is_finished = false) (two_waiting 2) := by
    constructor
    · intro req hreq
      simp only [two_waiting, List.mem_cons, List.not_mem_nil, or_false] at hreq
      rcases hreq with rfl | rfl <;> rfl
    · intro id req hreq
      cases hreq
  have hrunning : Holds (fun req => req.is_finished = false) ((two_waiting 2).admit_requests 0) :=
    hwaiting.admit_requests open_unwritten
  refine ⟨rfl, ?_, by simp [peer_with_eos], ⟨hrunning.waiting, hrunning.running⟩⟩
  show first_peer.scheduler.is_first_peer = true
  decide +kernel

theorem short_runs (eos : EosTokenId) : Runs (peer_with_eos eos) "a" short_running := by
  refine ⟨?_, rfl, rfl, ?_, ?_⟩
  · show first_peer.running "a" = some short_running
    decide +kernel
  · show first_peer.has_request "a" = true
    decide +kernel
  · show "a" ∉ first_peer.waiting_ids
    decide +kernel

/-- With the end-of-sequence id 2 the stream 5, 2 stops at its second token. -/
theorem second_token_stops : GenerationStops (peer_with_eos (.one 2)) "a" short_running [5, 2] :=
  (generation_stops_iff (peer_with_eos (.one 2)) "a" short_running [5, 2]
    (peer_with_eos_first (.one 2)) (short_runs (.one 2))).mpr (by
      rintro pre t ⟨hpre, _⟩ rfl
      have hmem := hpre.subset (List.mem_append_right pre (List.mem_singleton_self (0 : Int)))
      simp at hmem)

/-- With the end-of-sequence id 0 a token 0 does not stop the request. -/
theorem zero_does_not_stop :
    ¬ ∀ (e : Executor) (id : String) (r : Request) (ts : List Int), FirstPeer e → Runs e id r →
      GenerationStops e id r ts := by
  intro hall
  have hpeer := peer_with_eos_first (.one 0)
  have hruns := short_runs (.one 0)
  obtain ⟨⟨l', hrun⟩, hmust⟩ := hall _ _ _ [0] hpeer hruns
  have hends := generates_ends hrun hpeer hruns.initial (serving_of_runs hruns)
  have hsent := (hmust l' hrun).sent
  rw [hends.sent] at hsent
  have hsame := List.append_cancel_left hsent
  revert hsame
  decide +kernel

end parallax.server.executor
