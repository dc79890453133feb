-- What reaches the client of the tokens of a request. The text of a stream and
-- the text of a whole response are put together from the same segments, and the
-- segment of the last token is in neither.
import InferenceMesh.Server.Generation
import InferenceMesh.Server.HttpServer

open ordered_dict python_string
open parallax.server.executor parallax.server.request parallax.server.scheduler

namespace parallax.server.http_server

/-! ## Tokens and their text -/

section tokens

variable (d : StreamingDetokenizer)

/-- The detokenizer after a list of tokens. -/
def after (tokens : List Int) : d.State := tokens.foldl d.add_token d.reset

/-- The library promises that the text only grows, and that at the end it is the text of all
tokens. -/
structure Exact (decode : List Int → List Char) : Prop where
  empty : d.text d.reset = []
  grows : ∀ state token, d.text state <+: d.text (d.add_token state token)
  exact : ∀ tokens, d.text (d.finalize (after d tokens)) = decode tokens

end tokens

/-- Why the executor ends a request. -/
inductive Reason where
  | eos
  | length
  deriving DecidableEq

/-- What a message of the executor says of its request. -/
inductive Said where
  | goes_on (token : Int)
  | ends (token : Int) (reason : Reason)
  | fails
  deriving DecidableEq

def said : IpcMessage → Said
  | .token _ next_token_id _ eos length =>
    if length then .ends next_token_id .length
    else if eos then .ends next_token_id .eos
    else .goes_on next_token_id
  | .error _ _ _ _ => .fails

/-- What is said of a request that ends with its last token. -/
def committed (tokens : List Int) (last : Int) (reason : Reason) : List Said :=
  tokens.map .goes_on ++ [.ends last reason]

/-- The tokens that are text: all of them but one that ends the sequence. -/
def text_tokens (tokens : List Int) (last : Int) : Reason → List Int
  | .eos => tokens
  | .length => tokens ++ [last]

/-- What an event says of the request. -/
def Event.about (rid : String) : Event → Option Said
  | .message m => if m.rid = rid then some (said m) else none
  | _ => none

def heard (rid : String) (events : List Event) : List Said :=
  events.filterMap (Event.about rid)

/-- The content of the data of a stream. -/
def StreamData.content : StreamData → List Char
  | .chunk c => c.content.getD []
  | .error _ _ _ _ _ _ _ => []
  | .done => []

def streamed_text (sent : List StreamData) : List Char := (sent.map StreamData.content).flatten

def Reply.content : Reply → List Char
  | .error _ _ _ => []
  | .completion _ _ _ _ _ _ _ _ content => content

/-- What a stream starts with. -/
def opening_text (model_path_str : String) : List Char :=
  if starts_with_think model_path_str then "<think>".toList else []

variable {d : StreamingDetokenizer}

/-! ## What the executor says -/

section executor

variable {id : String} {r : Request}

/-- A stream that stops ends with the first token that stops it. -/
theorem generated_stops {stop : Nat → Int → Bool} {n : Nat} {ts : List Int}
    (h : stops stop n ts = true) : ∃ tokens last, (tokens ++ [last]) <+: ts ∧
      generated stop n ts = tokens.map (fun token => (token, false)) ++ [(last, true)] := by
  induction ts generalizing n with
  | nil => simp [stops, generated] at h
  | cons t ts ih =>
    unfold stops generated at h
    unfold generated
    split at h
    · rename_i hstop
      refine ⟨[], t, by simp, ?_⟩
      simp [hstop]
    · rename_i hstop
      rw [List.any_cons, Bool.false_or] at h
      obtain ⟨tokens, last, hprefix, hgen⟩ := ih h
      refine ⟨t :: tokens, last, List.cons_prefix_cons.mpr ⟨rfl, hprefix⟩, ?_⟩
      rw [if_neg hstop, hgen]
      rfl

/-- A message with a mark says the same as the mark. -/
theorem said_of_mark {m : IpcMessage} {token : Int} {stopped : Bool}
    (h : m.mark = some (token, stopped)) : if stopped then ∃ reason, said m = .ends token reason
      else said m = .goes_on token := by
  cases m with
  | token _ next_token_id _ eos length =>
    obtain ⟨rfl, rfl⟩ := Prod.mk.inj (Option.some.inj h)
    cases eos <;> cases length <;> simp [said]
  | error => cases h

theorem said_of_marks {ms : List IpcMessage} {tokens : List Int} {last : Int}
    (hall : ∀ m ∈ ms, m.mark.isSome = true)
    (hmarks : ms.filterMap IpcMessage.mark =
      tokens.map (fun token => (token, false)) ++ [(last, true)]) :
    ∃ reason, ms.map said = committed tokens last reason := by
  induction ms generalizing tokens with
  | nil => simp at hmarks
  | cons m ms ih =>
    obtain ⟨⟨token, stopped⟩, hm⟩ := Option.isSome_iff_exists.mp (hall m List.mem_cons_self)
    rw [List.filterMap_cons_some hm] at hmarks
    have hsaid := said_of_mark hm
    rcases tokens with _ | ⟨t, tokens⟩
    · obtain ⟨hmark, hrest⟩ := List.cons.inj hmarks
      cases hmark
      obtain ⟨reason, hreason⟩ := hsaid
      have hnil : ms = [] := by
        cases ms with
        | nil => rfl
        | cons m' ms =>
          obtain ⟨mark, hm'⟩ := Option.isSome_iff_exists.mp
            (hall m' (List.mem_cons_of_mem _ List.mem_cons_self))
          rw [List.filterMap_cons_some hm'] at hrest
          cases hrest
      exact ⟨reason, by simp [hnil, hreason, committed]⟩
    · obtain ⟨hmark, hrest⟩ := List.cons.inj hmarks
      cases hmark
      obtain ⟨reason, hrest'⟩ := ih (fun m' hm' => hall m' (List.mem_cons_of_mem _ hm')) hrest
      refine ⟨reason, ?_⟩
      rw [List.map_cons, hrest', show said m = _ from hsaid]
      rfl

theorem sent_for_send_to_ipc {e : Executor} {m : IpcMessage} (hid : m.rid = id) :
    (e.send_to_ipc m).sent_for id = e.sent_for id ++ [m] := by
  simp [Executor.sent_for, Executor.send_to_ipc, List.filter_append, hid]

/-- Nothing but tokens is sent of a request that runs, or that is gone. -/
theorem generates_messages {l l' : Loop} {ts : List Int} (h : Generates id l ts l')
    (hpeer : FirstPeer l.peer) (hinitial : r.is_initial = true)
    (hstate : Gone id l.peer ∨ ∃ committed, Serving id r committed l.peer) :
    ∃ ms, l'.peer.sent_for id = l.peer.sent_for id ++ ms ∧ ∀ m ∈ ms, m.mark.isSome = true := by
  induction h with
  | done l => exact ⟨[], by simp, by simp⟩
  | @token l l' l'' now position packet rest hidden_states t ts hreceived hid hkind hstep _ ih =>
    have hpeer' := step_first_peer hpeer hstep
    obtain ⟨hrun, _⟩ := handle_step hreceived hstep
    rw [handle_first_packet hkind, handle_token_eq, hid] at hrun
    rcases hstate with hgone | ⟨committed, hserving⟩
    · rw [hgone.running] at hrun
      have heq := (EStateM.Result.ok.inj hrun).2
      rw [← heq] at hpeer' ih
      exact ih hpeer' (.inl hgone)
    · obtain ⟨q, hq, hcontinues⟩ := hserving.running
      rw [hq] at hrun
      dsimp only at hrun
      rw [if_pos hserving.cached] at hrun
      have hq' : l.peer.running packet.request_id = some q := by
        rw [hid]
        exact hq
      have hstate' : Gone id l'.peer ∨ ∃ committed, Serving id r committed l'.peer := by
        cases commit_token_advances hpeer hinitial hserving hid hq' hcontinues hrun with
        | stopped _ hgone => exact .inl hgone
        | goes_on _ hserving' => exact .inr ⟨_, hserving'⟩
      obtain ⟨ms, hms, hall⟩ := ih hpeer' hstate'
      have hsent : ∃ m, l'.peer.sent_for id = l.peer.sent_for id ++ [m] ∧ m.mark.isSome = true := by
        rw [commit_token.spec hpeer hq' rfl] at hrun
        have heq := (EStateM.Result.ok.inj hrun).2
        rw [← heq]
        split
        · refine ⟨token_message packet (with_status l.peer.scheduler
            (with_token q t packet.routing_table)) t, ?_, rfl⟩
          rw [sent_for_send_to_ipc (show (token_message packet _ t).rid = id from hid)]
          congr 1
          exact pass_on_cases (fun e => e.sent_for id = l.peer.sent_for id) rfl rfl
        · refine ⟨token_message packet (with_token q t packet.routing_table) t, ?_, rfl⟩
          rw [sent_for_send_to_ipc (show (token_message packet _ t).rid = id from hid)]
          rfl
      obtain ⟨m, hm, hmark⟩ := hsent
      refine ⟨m :: ms, ?_, ?_⟩
      · rw [hms, hm, List.append_assoc]
        rfl
      · intro m' hm'
        rcases List.mem_cons.mp hm' with rfl | hm'
        · exact hmark
        · exact hall m' hm'
  | @other l l' l'' event ts hstep hother hrest ih =>
    have hundisturbed : Undisturbed id l.peer l'.peer := by
      rcases hstate with hgone | ⟨committed, hserving⟩
      · refine step_undisturbed hpeer hgone.waiting (fun hruns => ?_) hstep hother
        unfold Executor.runs Dict.has at hruns
        have hnone := hgone.running
        unfold Executor.running Scheduler.get_running_request at hnone
        rw [hnone] at hruns
        cases hruns
      · exact step_undisturbed hpeer hserving.waiting (fun _ => hserving.cached) hstep hother
    obtain ⟨ms, hms, hall⟩ := ih (step_first_peer hpeer hstep) (by
      rcases hstate with hgone | ⟨committed, hserving⟩
      · exact .inl (undisturbed_gone hundisturbed hgone)
      · exact .inr ⟨committed, undisturbed_serving hundisturbed hserving⟩)
    exact ⟨ms, by rw [hms, hundisturbed.sent], hall⟩

/-- What the executor says of a request that stops are its tokens, in their order, and the last of
them with the reason. -/
theorem executor_says_committed {e : Executor} {l' : Loop} {ts : List Int} (hpeer : FirstPeer e)
    (hruns : Runs e id r) (hrun : Generates id ⟨e, []⟩ ts l')
    (hstop : stops (seen_stop e.scheduler r) 0 ts = true) :
    ∃ tokens last reason ms, (tokens ++ [last]) <+: ts ∧
      l'.peer.sent_for id = e.sent_for id ++ ms ∧ ms.map said = committed tokens last reason := by
  have hserving := serving_of_runs hruns
  obtain ⟨ms, hms, hall⟩ := generates_messages hrun hpeer hruns.initial (.inr ⟨[], hserving⟩)
  have hsent := (generates_ends hrun hpeer hruns.initial hserving).sent
  unfold Executor.tokens_sent at hsent
  rw [hms, List.filterMap_append] at hsent
  obtain ⟨tokens, last, hprefix, hgen⟩ := generated_stops hstop
  obtain ⟨reason, hreason⟩ := said_of_marks hall
    ((List.append_cancel_left hsent).trans hgen)
  exact ⟨tokens, last, reason, ms, hprefix, hms, hreason⟩

end executor

/-! ## One token -/

/-- The request holds the text of the tokens that came, all of it. -/
structure Holding (stream : Bool) (tokens : List Int) (request_info : HTTPRequestInfo d) :
    Prop where
  stream : request_info.stream = stream
  text : request_info.text = d.text (after d tokens)
  detokenizer : request_info.detokenizer = ⟨after d tokens, (d.text (after d tokens)).length⟩
  unfinished : request_info.is_finish = false
  no_error : request_info.error_message = none

structure Finished (stream : Bool) (tokens : List Int) (request_info : HTTPRequestInfo d) :
    Prop where
  stream : request_info.stream = stream
  text : request_info.text = d.text (after d tokens)
  finished : request_info.is_finish = true
  no_error : request_info.error_message = none

section token

variable {decode : List Int → List Char} {stream : Bool} {tokens : List Int}
  {request_info : HTTPRequestInfo d} (prompt_tokens : Nat) (token : Int)

theorem after_append (tokens : List Int) (token : Int) :
    after d (tokens ++ [token]) = d.add_token (after d tokens) token := by
  simp [after]

/-- A token brings its segment, unless it is empty. -/
theorem handle_token_going (hexact : Exact d decode) (h : Holding stream tokens request_info) :
    Holding stream (tokens ++ [token]) (handle_token prompt_tokens token false false request_info) ∧
      ∃ segments : List (List Char),
        (handle_token prompt_tokens token false false request_info).text =
          request_info.text ++ segments.flatten ∧
        (stream = true →
          (handle_token prompt_tokens token false false request_info).token_queue =
            request_info.token_queue.map (fun queue => queue ++ segments.map .text)) := by
  obtain ⟨more, hmore⟩ := hexact.grows (after d tokens) token
  have hsegment : (request_info.detokenizer.add_token token).last_segment =
      (more, ⟨after d (tokens ++ [token]), (d.text (after d (tokens ++ [token]))).length⟩) := by
    unfold Detokenizer.last_segment Detokenizer.add_token
    rw [h.detokenizer, after_append, ← hmore]
    simp
  have htext : request_info.text ++ more = d.text (after d (tokens ++ [token])) := by
    rw [h.text, after_append, hmore]
  unfold handle_token
  rw [hsegment]
  rcases more with _ | ⟨c, more⟩
  · refine ⟨⟨h.stream, ?_, rfl, h.unfinished, h.no_error⟩, [], by simp, fun _ => by simp⟩
    simpa using htext
  · rcases hstream : request_info.stream with _ | _
    · refine ⟨⟨?_, ?_, ?_, ?_, ?_⟩, [c :: more], ?_, ?_⟩ <;>
        simp_all [HTTPRequestInfo.put, h.unfinished, h.no_error, ← h.stream]
    · refine ⟨⟨?_, ?_, ?_, ?_, ?_⟩, [c :: more], ?_, ?_⟩ <;>
        simp_all [HTTPRequestInfo.put, h.unfinished, h.no_error, ← h.stream]

/-- The last token brings no text. -/
theorem handle_token_last {eos length : Bool} (hlast : (eos || length) = true)
    (h : Holding stream tokens request_info) :
    Finished stream tokens (handle_token prompt_tokens token eos length request_info) ∧
      (stream = true → (handle_token prompt_tokens token eos length request_info).token_queue =
        request_info.token_queue.map (fun queue => queue ++ [.sentinel])) := by
  have hstream := h.stream
  have htext := h.text
  have herror := h.no_error
  unfold handle_token HTTPRequestInfo.put
  rcases stream with _ | _
  · refine ⟨⟨?_, ?_, ?_, ?_⟩, by simp⟩ <;> cases length <;> simp_all
  · refine ⟨⟨?_, ?_, ?_, ?_⟩, ?_⟩ <;> cases length <;> simp_all

end token

/-! ## Sessions -/

/-- What was sent of a stream and what waits in its queue make up the text. -/
structure Sending (head text : List Char) (c : Connection) (waiting : List (List Char)) : Prop where
  opening : c.phase = .opening → c.sent = [] ∧ waiting.flatten = text
  reading : c.phase = .reading → streamed_text c.sent ++ waiting.flatten = head ++ text
  open_ : c.phase ≠ .closed

/-- The response goes on: the text waits in the queue, before its end, or there is no reply yet. -/
structure Waits (stream : Bool) (head : List Char) (s : Session d)
    (request_info : HTTPRequestInfo d) (tail : List QueueItem) : Prop where
  streams : stream = true → ∃ segments : List (List Char),
    request_info.token_queue = some (segments.map .text ++ tail) ∧
      Sending head request_info.text s.connection segments
  replies : stream = false → s.reply = none

/-- The response is complete. -/
structure Served (stream : Bool) (head text : List Char) (s : Session d) : Prop where
  streams : stream = true → s.connection.phase = .closed ∧
    streamed_text s.connection.sent = head ++ text
  replies : stream = false → ∃ reply, s.reply = some reply ∧ reply.content = text

section sessions

variable (rid : String) (stream : Bool) (head : List Char) (tokens : List Int) (last : Int)
  (reason : Reason)

/-- How far a session is, with what is still to be said. -/
inductive Serves : List Said → Session d → Prop where
  | going {s : Session d} {done rest : List Int} {request_info : HTTPRequestInfo d}
      (hsplit : done ++ rest = tokens)
      (hinfo : s.handler.processing_requests.get? rid = some request_info)
      (hholding : Holding stream done request_info) (hwaits : Waits stream head s request_info []) :
      Serves (committed rest last reason) s
  | finished {s : Session d} {request_info : HTTPRequestInfo d}
      (hinfo : s.handler.processing_requests.get? rid = some request_info)
      (hfinished : Finished stream tokens request_info)
      (hwaits : Waits stream head s request_info [.sentinel]) : Serves [] s
  | complete {s : Session d} (hgone : s.handler.processing_requests.get? rid = none)
      (hserved : Served stream head (d.text (after d tokens)) s) : Serves [] s

variable {rid stream head tokens last reason}

/-- Only the entry of the request and its response matter. -/
theorem Serves.frame {remaining : List Said} {s s' : Session d}
    (h : Serves rid stream head tokens last reason remaining s)
    (hget : s'.handler.processing_requests.get? rid = s.handler.processing_requests.get? rid)
    (hconnection : s'.connection = s.connection) (hreply : s'.reply = s.reply) :
    Serves rid stream head tokens last reason remaining s' := by
  cases h with
  | going hsplit hinfo hholding hwaits =>
    exact .going hsplit (hget.trans hinfo) hholding
      ⟨hconnection ▸ hwaits.streams, fun h => hreply.trans (hwaits.replies h)⟩
  | finished hinfo hfinished hwaits =>
    exact .finished (hget.trans hinfo) hfinished
      ⟨hconnection ▸ hwaits.streams, fun h => hreply.trans (hwaits.replies h)⟩
  | complete hgone hserved =>
    exact .complete (hget.trans hgone) ⟨hconnection ▸ hserved.streams, hreply ▸ hserved.replies⟩

theorem get?_handle_message_other {m : IpcMessage} {h : HTTPHandler d} (hother : m.rid ≠ rid) :
    (h.handle_message m).processing_requests.get? rid = h.processing_requests.get? rid := by
  unfold HTTPHandler.handle_message
  split
  · rfl
  · exact Dict.get?_insert_ne _ _ hother

theorem get?_close_stream_other {other : String} {h : HTTPHandler d} (hother : other ≠ rid) :
    (h.close_stream other).processing_requests.get? rid = h.processing_requests.get? rid := by
  unfold HTTPHandler.close_stream
  split
  · rfl
  · split
    · exact Dict.get?_erase_ne _ hother
    · exact Dict.get?_erase_ne _ hother

theorem get?_create_other {other : String} {h : HTTPHandler d} (hother : other ≠ rid)
    (stream : Bool) (model : Option String) (now : Rat) :
    (h.create_request other stream model now).processing_requests.get? rid =
      h.processing_requests.get? rid := Dict.get?_insert_ne _ _ hother

theorem handle_message_info {h : HTTPHandler d} {request_info : HTTPRequestInfo d}
    {prompt_tokens : Nat} {token : Int} {eos length : Bool}
    (hinfo : h.processing_requests.get? rid = some request_info) :
    (h.handle_message (.token prompt_tokens token rid eos length)).processing_requests.get? rid =
      some (handle_token prompt_tokens token eos length request_info) := by
  unfold HTTPHandler.handle_message
  have hget : h.processing_requests.get? (IpcMessage.token prompt_tokens token rid eos length).rid =
      some request_info := hinfo
  rw [hget]
  exact Dict.get?_insert_self _ _ _

theorem says_goes_on {m : IpcMessage} {token : Int} (hrid : m.rid = rid)
    (hm : said m = .goes_on token) :
    ∃ prompt_tokens, m = .token prompt_tokens token rid false false := by
  cases m with
  | token prompt_tokens next_token_id rid' eos length =>
    have hrid' : rid' = rid := hrid
    subst hrid'
    cases eos <;> cases length <;> simp_all [said]
  | error => cases hm

theorem says_ends {m : IpcMessage} {token : Int} (hrid : m.rid = rid)
    (hm : said m = .ends token reason) : ∃ prompt_tokens eos length,
      m = .token prompt_tokens token rid eos length ∧ (eos || length) = true := by
  cases m with
  | token prompt_tokens next_token_id rid' eos length =>
    have hrid' : rid' = rid := hrid
    subst hrid'
    cases eos <;> cases length <;> simp_all [said]
  | error => cases hm

/-- A message about the request. -/
theorem message_serves {decode : List Int → List Char} (hexact : Exact d decode) {m : IpcMessage}
    {remaining : List Said} {s : Session d} (hrid : m.rid = rid)
    (h : Serves rid stream head tokens last reason (said m :: remaining) s) :
    Serves rid stream head tokens last reason remaining
      { s with handler := s.handler.handle_message m } := by
  generalize hall : said m :: remaining = all at h
  cases h with
  | @going _ done rest request_info hsplit hinfo hholding hwaits =>
    rcases rest with _ | ⟨token, rest⟩
    · -- The last token.
      rw [List.append_nil] at hsplit
      subst hsplit
      obtain ⟨hm, hrest⟩ := List.cons.inj hall
      have hrest' : remaining = [] := hrest
      subst hrest'
      obtain ⟨prompt_tokens, eos, length, rfl, hlast⟩ := says_ends hrid hm
      obtain ⟨hfinished, hqueue⟩ := handle_token_last prompt_tokens last hlast hholding
      refine .finished (handle_message_info hinfo) hfinished ⟨fun hstream => ?_, hwaits.replies⟩
      obtain ⟨segments, hsegments, hsending⟩ := hwaits.streams hstream
      refine ⟨segments, ?_, ?_⟩
      · rw [hqueue hstream, hsegments]
        simp
      · rw [hfinished.text, ← hholding.text]
        exact hsending
    · obtain ⟨hm, hrest⟩ := List.cons.inj hall
      have hrest' : remaining = committed rest last reason := hrest
      subst hrest'
      obtain ⟨prompt_tokens, rfl⟩ := says_goes_on hrid hm
      obtain ⟨hholding', new, htext, hqueue⟩ :=
        handle_token_going prompt_tokens token hexact hholding
      refine .going (by rw [← hsplit]; simp) (handle_message_info hinfo) hholding'
        ⟨fun hstream => ?_, hwaits.replies⟩
      obtain ⟨segments, hsegments, hsending⟩ := hwaits.streams hstream
      refine ⟨segments ++ new, ?_, ?_⟩
      · rw [hqueue hstream, hsegments]
        simp
      · rw [htext]
        refine ⟨fun hphase => ?_, fun hphase => ?_, hsending.open_⟩
        · obtain ⟨hsent, hwaiting⟩ := hsending.opening hphase
          exact ⟨hsent, by rw [List.flatten_append, hwaiting]⟩
        · rw [List.flatten_append, ← List.append_assoc, hsending.reading hphase, List.append_assoc]
  | finished => cases hall
  | complete => cases hall

theorem streamed_text_append (sent : List StreamData) (x : StreamData) :
    streamed_text (sent ++ [x]) = streamed_text sent ++ x.content := by
  simp [streamed_text]

/-- The first data of a stream. -/
theorem next_data_opening {h : HTTPHandler d} {c : Connection} {request_info : HTTPRequestInfo d}
    (hinfo : h.processing_requests.get? rid = some request_info) (hphase : c.phase = .opening)
    (hstream : request_info.stream = true) : next_data rid h c =
      (h, ⟨.reading, c.sent ++ [generate_stream_chunk h rid request_info [] true false]⟩) := by
  unfold next_data
  rw [hphase, hinfo]
  simp [hstream]

/-- A segment is taken out of the queue and sent. -/
theorem next_data_text {h : HTTPHandler d} {c : Connection} {request_info : HTTPRequestInfo d}
    {output : List Char} {queue : List QueueItem}
    (hinfo : h.processing_requests.get? rid = some request_info) (hphase : c.phase = .reading)
    (hqueue : request_info.token_queue = some (.text output :: queue)) :
    (next_data rid h c).1.processing_requests.get? rid =
        some { request_info with token_queue := some queue } ∧
      (next_data rid h c).2.phase = .reading ∧
      streamed_text (next_data rid h c).2.sent = streamed_text c.sent ++ output := by
  unfold next_data
  rw [hphase, hinfo]
  simp only [hqueue]
  exact ⟨Dict.get?_insert_self _ _ _, trivial, streamed_text_append _ _⟩

/-- The sentinel closes the stream of a finished request. -/
theorem next_data_sentinel {h : HTTPHandler d} {c : Connection} {request_info : HTTPRequestInfo d}
    {queue : List QueueItem}
    (hinfo : h.processing_requests.get? rid = some request_info) (hphase : c.phase = .reading)
    (hqueue : request_info.token_queue = some (.sentinel :: queue)) :
    (next_data rid h c).1.processing_requests.get? rid = none ∧
      (next_data rid h c).2.phase = .closed ∧
      streamed_text (next_data rid h c).2.sent = streamed_text c.sent := by
  unfold next_data
  rw [hphase, hinfo]
  simp only [hqueue]
  refine ⟨?_, trivial, ?_⟩
  · unfold HTTPHandler.close_stream
    rw [Dict.get?_insert_self]
    dsimp only
    split
    · simp [HTTPHandler.release_request]
    · simp [HTTPHandler.release_request]
  · simp [streamed_text, StreamData.content, generate_stream_chunk]

/-- The generator waits for the next item. -/
theorem next_data_empty {h : HTTPHandler d} {c : Connection} {request_info : HTTPRequestInfo d}
    (hinfo : h.processing_requests.get? rid = some request_info) (hphase : c.phase = .reading)
    (hqueue : request_info.token_queue = some []) : next_data rid h c = (h, c) := by
  unfold next_data
  rw [hphase, hinfo]
  simp only [hqueue]

theorem step_next_stream (s : Session d) : s.step rid true .next =
    { s with
      handler := (next_data rid s.handler s.connection).1
      connection := (next_data rid s.handler s.connection).2 } := rfl

/-- A turn of the stream: it goes on, or it has come to the tail of the queue. -/
theorem next_waits {s : Session d} {request_info : HTTPRequestInfo d} {tail : List QueueItem}
    (hhead : head = opening_text s.handler.model_path_str)
    (hinfo : s.handler.processing_requests.get? rid = some request_info)
    (hstream : request_info.stream = true) (hwaits : Waits true head s request_info tail) :
    (∃ queue, (s.step rid true .next).handler.processing_requests.get? rid =
        some { request_info with token_queue := queue } ∧
      Waits true head (s.step rid true .next) { request_info with token_queue := queue } tail) ∨
    s.connection.phase = .reading ∧ request_info.token_queue = some tail ∧
      streamed_text s.connection.sent = head ++ request_info.text := by
  obtain ⟨segments, hqueue, hsending⟩ := hwaits.streams rfl
  rw [step_next_stream]
  rcases hphase : s.connection.phase with _ | _ | _
  · -- The first chunk.
    obtain ⟨hsent, hwaiting⟩ := hsending.opening hphase
    have hnext := next_data_opening hinfo hphase hstream
    refine Or.inl ⟨request_info.token_queue, by rw [hnext]; exact hinfo, fun _ => ?_, ?_⟩
    · refine ⟨segments, hqueue, ?_⟩
      rw [hnext]
      refine ⟨?_, fun _ => ?_, by simp⟩
      · intro h
        cases h
      · rw [hsent, hwaiting, hhead]
        simp [streamed_text, StreamData.content, generate_stream_chunk, opening_text]
    · intro h
      cases h
  · have hread := hsending.reading hphase
    rcases segments with _ | ⟨output, segments⟩
    · exact Or.inr ⟨rfl, by simpa using hqueue, by simpa using hread⟩
    · obtain ⟨hget, hphase', htext⟩ := next_data_text hinfo hphase hqueue
      refine Or.inl ⟨some (segments.map .text ++ tail), hget, fun _ => ⟨segments, rfl, ?_⟩, ?_⟩
      · refine ⟨?_, fun _ => ?_, ?_⟩
        · intro h
          rw [show _ = Phase.reading from hphase'] at h
          cases h
        · show streamed_text (next_data rid s.handler s.connection).2.sent ++ segments.flatten = _
          rw [htext, List.append_assoc]
          exact hread
        · rw [show _ = Phase.reading from hphase']
          simp
      · intro h
        cases h
  · exact absurd hphase hsending.open_

/-- A turn of the response. -/
theorem next_serves {remaining : List Said} {s : Session d}
    (hhead : head = opening_text s.handler.model_path_str)
    (h : Serves rid stream head tokens last reason remaining s) :
    Serves rid stream head tokens last reason remaining (s.step rid stream .next) := by
  rcases stream with _ | _
  · unfold Session.step
    cases h with
    | going hsplit hinfo hholding hwaits =>
      have hreply := hwaits.replies rfl
      refine Serves.frame (.going hsplit hinfo hholding hwaits) ?_ ?_ ?_
      all_goals simp [poll, hreply, hinfo, hholding.unfinished]
    | finished hinfo hfinished hwaits =>
      have hreply := hwaits.replies rfl
      simp only [poll, hreply, hinfo, hfinished.finished, hfinished.no_error]
      refine .complete (by simp [HTTPHandler.release_request])
        ⟨fun h => absurd h Bool.false_ne_true, fun _ => ⟨_, rfl, ?_⟩⟩
      exact hfinished.text
    | complete hgone hserved =>
      obtain ⟨reply, hreply, hcontent⟩ := hserved.replies rfl
      simp only [hreply]
      exact .complete hgone hserved
  · cases h with
    | going hsplit hinfo hholding hwaits =>
      rcases next_waits hhead hinfo hholding.stream hwaits with ⟨queue, hget, hwaits'⟩ |
        ⟨hphase, hqueue, _⟩
      · exact .going hsplit hget
          ⟨hholding.stream, hholding.text, hholding.detokenizer, hholding.unfinished,
            hholding.no_error⟩ hwaits'
      · have hsame : s.step rid true .next = s := by
          rw [step_next_stream, next_data_empty hinfo hphase hqueue]
        rw [hsame]
        exact .going hsplit hinfo hholding hwaits
    | finished hinfo hfinished hwaits =>
      rcases next_waits hhead hinfo hfinished.stream hwaits with ⟨queue, hget, hwaits'⟩ |
        ⟨hphase, hqueue, htext⟩
      · exact .finished hget
          ⟨hfinished.stream, hfinished.text, hfinished.finished, hfinished.no_error⟩ hwaits'
      · obtain ⟨hgone, hclosed, hsent⟩ := next_data_sentinel hinfo hphase hqueue
        rw [step_next_stream]
        refine .complete hgone ⟨fun _ => ⟨hclosed, ?_⟩, fun h => absurd h.symm Bool.false_ne_true⟩
        rw [← hfinished.text, ← htext]
        exact hsent
    | complete hgone hserved =>
      have hclosed := (hserved.streams rfl).1
      have hsame : s.step rid true .next = s := by
        rw [step_next_stream]
        unfold next_data
        rw [hclosed]
      rw [hsame]
      exact .complete hgone hserved

/-! ## Runs -/

/-- One event, with the message about the request that it brings. -/
theorem step_serves {decode : List Int → List Char} (hexact : Exact d decode) {s : Session d}
    (hhead : head = opening_text s.handler.model_path_str) (e : Event)
    {remaining : List Said}
    (h : Serves rid stream head tokens last reason ((e.about rid).toList ++ remaining) s) :
    Serves rid stream head tokens last reason remaining (s.step rid stream e) := by
  cases e with
  | message m =>
    unfold Event.about at h
    dsimp only at h
    split at h
    · rename_i hrid
      exact message_serves hexact hrid h
    · rename_i hother
      exact h.frame (get?_handle_message_other hother) rfl rfl
  | next => exact next_serves hhead h
  | create other stream' model now =>
    unfold Session.step
    dsimp only
    split
    · exact h
    · rename_i hother
      exact h.frame (get?_create_other hother _ _ _) rfl rfl
  | close other =>
    unfold Session.step
    dsimp only
    split
    · exact h
    · rename_i hother
      exact h.frame (get?_close_stream_other hother) rfl rfl

theorem close_stream_path (h : HTTPHandler d) :
    (h.close_stream rid).model_path_str = h.model_path_str := by
  unfold HTTPHandler.close_stream
  split
  · rfl
  · split <;> rfl

/-- The model stays the same. -/
theorem step_path (s : Session d) (e : Event) :
    (s.step rid stream e).handler.model_path_str = s.handler.model_path_str := by
  cases e with
  | message m =>
    show (s.handler.handle_message m).model_path_str = _
    unfold HTTPHandler.handle_message
    split <;> rfl
  | next =>
    unfold Session.step
    dsimp only
    split
    · unfold next_data
      split
      · dsimp only
        split
        · rfl
        · exact close_stream_path _
      · split
        · dsimp only
          split
          · rfl
          · rfl
          · exact close_stream_path _
        · rfl
      · rfl
      · rfl
      · rfl
    · split
      · rfl
      · unfold poll
        split
        · rfl
        · split
          · split
            · rfl
            · split <;> rfl
          · rfl
  | create other stream' model now =>
    unfold Session.step
    dsimp only
    split <;> rfl
  | close other =>
    unfold Session.step
    dsimp only
    split
    · rfl
    · exact close_stream_path _

theorem run_serves {decode : List Int → List Char} (hexact : Exact d decode) {s : Session d}
    (hhead : head = opening_text s.handler.model_path_str) (events : List Event)
    {remaining : List Said}
    (h : Serves rid stream head tokens last reason (heard rid events ++ remaining) s) :
    Serves rid stream head tokens last reason remaining (s.run rid stream events) := by
  induction events generalizing s with
  | nil => exact h
  | cons e events ih =>
    have hheard : heard rid (e :: events) = (e.about rid).toList ++ heard rid events := by
      unfold heard
      rw [List.filterMap_cons]
      cases e.about rid <;> rfl
    rw [hheard, List.append_assoc] at h
    exact ih (hhead.trans (by rw [step_path])) (step_serves hexact hhead e h)

theorem start_serves {decode : List Int → List Char} (hexact : Exact d decode) (h : HTTPHandler d)
    (model : Option String) (now : Rat) :
    Serves rid stream head tokens last reason
      (committed tokens last reason) (Session.start h rid stream model now) := by
  have htext : d.text (after d []) = [] := hexact.empty
  refine .going (List.nil_append _) (Dict.get?_insert_self _ _ _)
    ⟨rfl, htext.symm, ?_, rfl, rfl⟩ ⟨fun hstream => ⟨[], ?_, ?_⟩, fun _ => rfl⟩
  · rw [htext]
    rfl
  · simp [hstream]
  · refine ⟨fun _ => ⟨rfl, rfl⟩, fun hphase => ?_, fun hphase => ?_⟩
    · cases hphase
    · cases hphase

/-- What a response is when all tokens came. -/
theorem Serves.text {s : Session d}
    (h : Serves rid stream head tokens last reason [] s) :
    (stream = true → s.connection.phase = .closed →
        streamed_text s.connection.sent = head ++ d.text (after d tokens)) ∧
      (stream = false → ∀ reply, s.reply = some reply → reply.content = d.text (after d tokens)) := by
  generalize hall : ([] : List Said) = remaining at h
  cases h with
  | going =>
    unfold committed at hall
    exact absurd hall (by simp)
  | finished hinfo hfinished hwaits =>
    refine ⟨fun hstream hclosed => ?_, fun hstream reply hreply => ?_⟩
    · obtain ⟨_, _, hsending⟩ := hwaits.streams hstream
      exact absurd hclosed hsending.open_
    · rw [hwaits.replies hstream] at hreply
      cases hreply
  | complete hgone hserved =>
    refine ⟨fun hstream _ => (hserved.streams hstream).2, fun hstream reply hreply => ?_⟩
    obtain ⟨reply', hreply', hcontent⟩ := hserved.replies hstream
    rw [hreply'] at hreply
    exact Option.some.inj hreply ▸ hcontent

/-! ## The end of a response -/

theorem run_append (s : Session d) (events more : List Event) :
    s.run rid stream (events ++ more) = (s.run rid stream events).run rid stream more := by
  simp [Session.run]

/-- What waits in the queue is sent, and then the stream closes. -/
theorem reading_drains (segments : List (List Char)) {s : Session d}
    {request_info : HTTPRequestInfo d}
    (hinfo : s.handler.processing_requests.get? rid = some request_info)
    (hphase : s.connection.phase = .reading)
    (hqueue : request_info.token_queue = some (segments.map .text ++ [.sentinel])) :
    ∃ n, (s.run rid true (List.replicate n .next)).connection.phase = .closed := by
  induction segments generalizing s request_info with
  | nil =>
    obtain ⟨_, hclosed, _⟩ := next_data_sentinel hinfo hphase hqueue
    exact ⟨1, hclosed⟩
  | cons output segments ih =>
    obtain ⟨hget, hphase', _⟩ := next_data_text hinfo hphase hqueue
    obtain ⟨n, hn⟩ := @ih (s.step rid true .next) _ hget hphase' rfl
    exact ⟨n + 1, hn⟩

/-- A stream closes when all was said. -/
theorem Serves.drains {s : Session d} (h : Serves rid true head tokens last reason [] s) :
    ∃ n, (s.run rid true (List.replicate n .next)).connection.phase = .closed := by
  generalize hall : ([] : List Said) = remaining at h
  cases h with
  | going =>
    unfold committed at hall
    exact absurd hall (by simp)
  | @finished _ request_info hinfo hfinished hwaits =>
    obtain ⟨segments, hqueue, hsending⟩ := hwaits.streams rfl
    rcases hphase : s.connection.phase with _ | _ | _
    · have hnext := next_data_opening hinfo hphase hfinished.stream
      have hstep : s.step rid true .next =
          { s with connection := ⟨.reading, s.connection.sent ++
            [generate_stream_chunk s.handler rid request_info [] true false]⟩ } := by
        rw [step_next_stream, hnext]
      obtain ⟨n, hn⟩ := @reading_drains _ rid segments (s.step rid true .next) _
        (by rw [hstep]; exact hinfo) (by rw [hstep]) hqueue
      exact ⟨n + 1, hn⟩
    · exact reading_drains segments hinfo hphase hqueue
    · exact ⟨0, hphase⟩
  | complete hgone hserved => exact ⟨0, (hserved.streams rfl).1⟩

/-- The next turn of the polling loop replies when all was said. -/
theorem Serves.replies {s : Session d} (h : Serves rid false head tokens last reason [] s) :
    (s.run rid false [.next]).reply.isSome = true := by
  generalize hall : ([] : List Said) = remaining at h
  show (s.step rid false .next).reply.isSome = true
  unfold Session.step
  cases h with
  | going =>
    unfold committed at hall
    exact absurd hall (by simp)
  | finished hinfo hfinished hwaits =>
    simp [poll, hwaits.replies rfl, hinfo, hfinished.finished, hfinished.no_error]
  | complete hgone hserved =>
    obtain ⟨reply, hreply, _⟩ := hserved.replies rfl
    simp [hreply]

/-- A session in which all was said. -/
theorem all_said {decode : List Int → List Char} (hexact : Exact d decode) (h : HTTPHandler d)
    (model : Option String) (now : Rat) {events : List Event}
    (hheard : heard rid events = committed tokens last reason) :
    Serves rid stream (opening_text h.model_path_str) tokens last reason []
      ((Session.start h rid stream model now).run rid stream events) := by
  have hstart : Serves rid stream (opening_text h.model_path_str) tokens last reason
      (heard rid events ++ []) (Session.start h rid stream model now) := by
    rw [hheard, List.append_nil]
    exact start_serves hexact h model now
  have hpath : (Session.start h rid stream model now).handler.model_path_str =
      h.model_path_str := rfl
  exact run_serves hexact (by rw [hpath]) events hstart

theorem stream_closes {decode : List Int → List Char} (hexact : Exact d decode) (h : HTTPHandler d)
    (model : Option String) (now : Rat) {events : List Event}
    (hheard : heard rid events = committed tokens last reason) :
    ∃ n, ((Session.start h rid true model now).run rid true
      (events ++ List.replicate n .next)).connection.phase = .closed := by
  obtain ⟨n, hn⟩ := (all_said hexact h model now hheard).drains
  refine ⟨n, ?_⟩
  rw [run_append]
  exact hn

theorem reply_comes {decode : List Int → List Char} (hexact : Exact d decode) (h : HTTPHandler d)
    (model : Option String) (now : Rat) {events : List Event}
    (hheard : heard rid events = committed tokens last reason) :
    ((Session.start h rid false model now).run rid false
      (events ++ [.next])).reply.isSome = true := by
  rw [run_append]
  exact (all_said hexact h model now hheard).replies

end sessions

/-! ## Complete delivery -/

/-- Whatever happens at the server while the tokens of a request come: a stream closes, a whole
response is given, and both carry the text of all tokens but one that ends the sequence. -/
structure Delivers (d : StreamingDetokenizer) (decode : List Int → List Char) (h : HTTPHandler d)
    (rid : String) (tokens : List Int) (last : Int) (reason : Reason) : Prop where
  stream_closes : ∀ model now events, heard rid events = committed tokens last reason →
    ∃ n, ((Session.start h rid true model now).run rid true
      (events ++ List.replicate n .next)).connection.phase = .closed
  reply_comes : ∀ model now events, heard rid events = committed tokens last reason →
    ((Session.start h rid false model now).run rid false (events ++ [.next])).reply.isSome = true
  streamed : ∀ model now events, heard rid events = committed tokens last reason →
    ((Session.start h rid true model now).run rid true events).connection.phase = .closed →
    streamed_text ((Session.start h rid true model now).run rid true events).connection.sent =
      decode (text_tokens tokens last reason)
  replied : ∀ model now events reply, heard rid events = committed tokens last reason →
    ((Session.start h rid false model now).run rid false events).reply = some reply →
    reply.content = decode (text_tokens tokens last reason)

/-- The messages of a request. -/
def told (rid : String) (tokens : List Int) (last : Int) (reason : Reason) : List Event :=
  tokens.map (fun token => .message (.token 0 token rid false false)) ++
    [.message (.token 0 last rid (reason = .eos) (reason = .length))]

theorem heard_told (rid : String) (tokens : List Int) (last : Int) (reason : Reason) :
    heard rid (told rid tokens last reason) = committed tokens last reason := by
  have hmap : (tokens.map (fun token => Event.message (.token 0 token rid false false))).filterMap
      (Event.about rid) = tokens.map .goes_on := by
    rw [List.filterMap_map, ← List.filterMap_eq_map]
    congr 1
    funext token
    exact if_pos rfl
  unfold heard told committed
  rw [List.filterMap_append, hmap]
  cases reason <;> simp [Event.about, said, IpcMessage.rid]

theorem heard_nexts (rid : String) (events : List Event) (n : Nat) :
    heard rid (events ++ List.replicate n .next) = heard rid events := by
  have hnone : (List.replicate n Event.next).filterMap (Event.about rid) = [] := by
    simp [Event.about]
  unfold heard
  rw [List.filterMap_append, hnone, List.append_nil]

/-- The text of a request is delivered just when the model does not start inside of a thought, and
the detokenizer had let out all of the text before the last token came. -/
theorem text_is_complete_iff (d : StreamingDetokenizer) (decode : List Int → List Char)
    (hexact : Exact d decode) (h : HTTPHandler d) (rid : String) (tokens : List Int) (last : Int)
    (reason : Reason) : Delivers d decode h rid tokens last reason ↔
      starts_with_think h.model_path_str = false ∧
        d.text (d.finalize (after d (text_tokens tokens last reason))) =
          d.text (after d tokens) := by
  have hthink : opening_text h.model_path_str = [] ↔
      starts_with_think h.model_path_str = false := by
    unfold opening_text
    split <;> simp_all
  rw [hexact.exact]
  constructor
  · intro hdelivers
    have htold := heard_told rid tokens last reason
    -- The reply of the server that hears only the messages.
    have hreply : decode (text_tokens tokens last reason) = d.text (after d tokens) := by
      have hheard := (heard_nexts rid (told rid tokens last reason) 1).trans htold
      obtain ⟨reply, hreply⟩ := Option.isSome_iff_exists.mp (reply_comes hexact h none 0 htold)
      have htext := (all_said hexact h none 0 hheard).text.2 rfl reply hreply
      exact (hdelivers.replied none 0 _ reply hheard hreply).symm.trans htext
    refine ⟨?_, hreply⟩
    obtain ⟨n, hn⟩ := stream_closes hexact h none 0 htold
    have hheard := (heard_nexts rid (told rid tokens last reason) n).trans htold
    have htext := (all_said hexact h none 0 hheard).text.1 rfl hn
    rw [hdelivers.streamed none 0 _ hheard hn, hreply] at htext
    exact hthink.mp (List.self_eq_append_left.mp htext)
  · rintro ⟨hno, htext⟩
    refine ⟨fun model now _ hheard => stream_closes hexact h model now hheard,
      fun model now _ hheard => reply_comes hexact h model now hheard, ?_, ?_⟩
    · intro model now events hheard hclosed
      rw [(all_said hexact h model now hheard).text.1 rfl hclosed, hthink.mpr hno,
        List.nil_append, htext]
    · intro model now events reply hheard hreply
      rw [(all_said hexact h model now hheard).text.2 rfl reply hreply, htext]

/-- A token for each character. -/
def letters : StreamingDetokenizer where
  State := List Char
  reset := []
  add_token := fun state token => state ++ [Char.ofNat token.toNat]
  finalize := id
  text := id

def decode_letters (tokens : List Int) : List Char :=
  tokens.map (fun token => Char.ofNat token.toNat)

theorem letters_exact : Exact letters decode_letters := by
  have hfold : ∀ (tokens : List Int) (state : List Char),
      tokens.foldl (fun state token => state ++ [Char.ofNat token.toNat]) state =
        state ++ decode_letters tokens := by
    intro tokens
    induction tokens with
    | nil => simp [decode_letters]
    | cons token tokens ih =>
      intro state
      rw [List.foldl_cons, ih]
      simp [decode_letters]
  exact ⟨rfl, fun state token => List.prefix_append _ _, fun tokens => hfold tokens []⟩

/-- A server with no requests. -/
def idle_server (model_path_str : String) : HTTPHandler letters := ⟨model_path_str, .empty, []⟩

/-- Two letters and the end of the sequence. -/
theorem two_letters_are_delivered :
    Delivers letters decode_letters (idle_server "Qwen/Qwen3-0.6B") "a" [72, 105] 2 .eos :=
  (text_is_complete_iff letters decode_letters letters_exact (idle_server "Qwen/Qwen3-0.6B") "a"
    [72, 105] 2 .eos).mpr (by decide +kernel)

/-- The third letter of a request that may have three tokens is lost. -/
theorem last_letter_is_lost :
    ¬ ∀ (d : StreamingDetokenizer) (decode : List Int → List Char), Exact d decode →
      ∀ (h : HTTPHandler d) (rid : String) (tokens : List Int) (last : Int) (reason : Reason),
        Delivers d decode h rid tokens last reason := by
  intro hall
  have hdelivers := hall letters decode_letters letters_exact (idle_server "Qwen/Qwen3-0.6B") "a"
    [72, 105] 33 .length
  have hlost := hdelivers.replied none 0 (told "a" [72, 105] 33 .length ++ [.next])
    (.completion "a" "chat.completion" "default" 0 (some "length") none 0 3 ['H', 'i'])
    (by decide +kernel) rfl
  exact absurd hlost (by decide)

end parallax.server.http_server
