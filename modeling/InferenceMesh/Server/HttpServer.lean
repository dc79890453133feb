-- The HTTP server of a peer (parallax/server/http_server.py): what it keeps of
-- each request, what it does with the messages of the executor, and how the
-- text gets to the client, chunk by chunk or in one response.
import InferenceMesh.Lib.PyString
import InferenceMesh.Server.Executor

open ordered_dict python_string
open parallax.server.executor

namespace parallax.server.http_server

/-! ## The detokenizer -/

/-- A streaming detokenizer of the tokenizer library: what it holds, and the text that it lets out
so far. -/
structure StreamingDetokenizer where
  State : Type
  reset : State
  add_token : State → Int → State
  finalize : State → State
  text : State → List Char

variable {d : StreamingDetokenizer}

/-- The detokenizer of a request, and how much of its text was read. -/
structure Detokenizer (d : StreamingDetokenizer) where
  state : d.State
  offset : Nat

namespace Detokenizer

def init : Detokenizer d := ⟨d.reset, 0⟩

def add_token (x : Detokenizer d) (token : Int) : Detokenizer d :=
  ⟨d.add_token x.state token, x.offset⟩

/-- The text since the last time this was read. -/
def last_segment (x : Detokenizer d) : List Char × Detokenizer d :=
  ((d.text x.state).drop x.offset, ⟨x.state, (d.text x.state).length⟩)

end Detokenizer

/-! ## Requests -/

/-- What waits in the queue of a stream. The sentinel is its end. -/
inductive QueueItem where
  | text (output : List Char)
  | error (message type : String) (code : Nat)
  | sentinel

structure HTTPRequestInfo (d : StreamingDetokenizer) where
  request_id : String
  text : List Char := []
  stream : Bool := false
  finish_reason : Option String := none
  object : String := "chat.completion"
  model : String := "default"
  create_time : Rat := 0
  matched_stop : Option Int := none
  prompt_tokens : Nat := 0
  completion_tokens : Nat := 0
  is_finish : Bool := false
  token_queue : Option (List QueueItem) := none
  detokenizer : Detokenizer d
  error_message : Option String := none
  error_type : Option String := none
  error_status : Nat := 500

/-- Puts an item into the queue of a streaming request. -/
def HTTPRequestInfo.put (request_info : HTTPRequestInfo d) (item : QueueItem) : HTTPRequestInfo d :=
  if request_info.stream then
    { request_info with token_queue := request_info.token_queue.map (fun queue => queue ++ [item]) }
  else request_info

/-- The requests that are served, and what was sent to the executor about them. -/
structure HTTPHandler (d : StreamingDetokenizer) where
  model_path_str : String
  processing_requests : Dict String (HTTPRequestInfo d)
  to_executor : List HttpMessage

namespace HTTPHandler

variable (h : HTTPHandler d)

def create_request (rid : String) (stream : Bool) (model : Option String) (now : Rat) :
    HTTPHandler d :=
  let request_info : HTTPRequestInfo d :=
    { request_id := rid
      stream := stream
      model := model.getD "default"
      object := if stream then "chat.completion.chunk" else "chat.completion"
      create_time := now
      token_queue := if stream then some [] else none
      detokenizer := .init }
  { h with processing_requests := h.processing_requests.insert rid request_info }

def release_request (rid : String) : HTTPHandler d :=
  { h with processing_requests := h.processing_requests.erase rid }

def abort_request (rid : String) : HTTPHandler d :=
  { h with to_executor := h.to_executor ++ [.abort rid] }

end HTTPHandler

/-! ## The messages of the executor -/

/-- `HTTPStatus(status_code)`, and BAD_REQUEST for a number that is none. -/
def http_status (status_code : Nat) : Nat :=
  if status_code ∈ [100, 101, 102, 103, 226, 300, 301, 302, 303, 304, 305, 307, 308, 428, 429, 431,
      451, 510, 511] ∨ 200 ≤ status_code ∧ status_code ≤ 208 ∨
      400 ≤ status_code ∧ status_code ≤ 418 ∨ 421 ≤ status_code ∧ status_code ≤ 426 ∨
      500 ≤ status_code ∧ status_code ≤ 508 then status_code
  else 400

/-- An error ends the request. -/
def handle_executor_error (error error_type : String) (status_code : Nat)
    (request_info : HTTPRequestInfo d) : HTTPRequestInfo d :=
  let status := http_status status_code
  let request_info := { request_info with
    error_message := some error
    error_type := some error_type
    error_status := status
    finish_reason := some "error"
    is_finish := true }
  (request_info.put (.error error error_type status)).put .sentinel

/-- A token. The text of the last one is not read out. -/
def handle_token (prompt_tokens : Nat) (next_token_id : Int) (eos length : Bool)
    (request_info : HTTPRequestInfo d) : HTTPRequestInfo d :=
  let (output, detokenizer) := (request_info.detokenizer.add_token next_token_id).last_segment
  let request_info := { request_info with
    prompt_tokens := prompt_tokens
    completion_tokens := request_info.completion_tokens + 1
    detokenizer := detokenizer }
  let is_finished := eos || length
  let request_info :=
    if !is_finished && output.length > 0 then
      { request_info with text := request_info.text ++ output }.put (.text output)
    else request_info
  if is_finished then
    let request_info :=
      if length then { request_info with finish_reason := some "length" }
      else { request_info with finish_reason := some "eos", matched_stop := some next_token_id }
    { request_info with is_finish := true }.put .sentinel
  else request_info

/-- One turn of the event loop. A message for a request that is not there is skipped. -/
def HTTPHandler.handle_message (message : IpcMessage) (h : HTTPHandler d) : HTTPHandler d :=
  match h.processing_requests.get? message.rid with
  | none => h
  | some request_info =>
    let request_info := match message with
      | .token prompt_tokens next_token_id _ eos length =>
        handle_token prompt_tokens next_token_id eos length request_info
      | .error _ error error_type status_code =>
        handle_executor_error error error_type status_code request_info
    { h with processing_requests := h.processing_requests.insert message.rid request_info }

/-! ## Streaming -/

/-- What a chunk says of its request. -/
structure StreamChunk where
  request_id : String
  model : String
  created : Rat
  role : Option String
  content : Option (List Char)
  finish_reason : Option String
  matched_stop : Option Int
  prompt_tokens : Nat
  completion_tokens : Nat

/-- The data lines of a stream. -/
inductive StreamData where
  | chunk (c : StreamChunk)
  | error (request_id object model : String) (created : Rat) (message type : String) (code : Nat)
  | done

/-- The models whose answers start inside of a thought. -/
def starts_with_think (model_path_str : String) : Bool :=
  contains model_path_str.toLower "minimax-m2"

def generate_stream_chunk (h : HTTPHandler d) (rid : String) (request_info : HTTPRequestInfo d)
    (token : List Char) (is_first is_last : Bool) : StreamData :=
  .chunk {
    request_id := rid
    model := request_info.model
    created := request_info.create_time
    role := if is_first then some "assistant" else none
    content :=
      if is_first then
        some (if starts_with_think h.model_path_str then "<think>".toList else [])
      else if is_last then none
      else some token
    finish_reason := if is_last then request_info.finish_reason else none
    matched_stop := request_info.matched_stop
    prompt_tokens := request_info.prompt_tokens
    completion_tokens := request_info.completion_tokens }

/-- Where the generator of a stream is. -/
inductive Phase where
  | opening
  | reading
  | closed
  deriving DecidableEq

/-- The response of a stream: what was sent of it. -/
structure Connection where
  phase : Phase
  sent : List StreamData

/-- The end of a stream, or of its client: a request that is not finished is aborted. -/
def HTTPHandler.close_stream (rid : String) (h : HTTPHandler d) : HTTPHandler d :=
  match h.processing_requests.get? rid with
  | none => h
  | some request_info =>
    if request_info.is_finish then h.release_request rid
    else (h.abort_request rid).release_request rid

/-- The next data of the stream, when there is some. -/
def next_data (rid : String) (h : HTTPHandler d) (c : Connection) : HTTPHandler d × Connection :=
  match c.phase, h.processing_requests.get? rid with
  | .opening, some request_info =>
    let first := generate_stream_chunk h rid request_info [] true false
    if request_info.stream then (h, ⟨.reading, c.sent ++ [first]⟩)
    else (h.close_stream rid, ⟨.closed, c.sent ++ [first]⟩)
  | .reading, some request_info =>
    match request_info.token_queue with
    | some (item :: queue) =>
      let request_info' := { request_info with token_queue := some queue }
      let popped := { h with processing_requests :=
        h.processing_requests.insert rid request_info' }
      match item with
      | .text output =>
        (popped,
          ⟨.reading, c.sent ++ [generate_stream_chunk h rid request_info output false false]⟩)
      | .error message type code =>
        (popped, ⟨.reading, c.sent ++ [.error rid request_info.object request_info.model
          request_info.create_time message type code]⟩)
      | .sentinel =>
        (popped.close_stream rid,
          ⟨.closed, c.sent ++ [generate_stream_chunk h rid request_info [] false true, .done]⟩)
    -- The generator waits.
    | _ => (h, c)
  -- The request is gone, and the lookup raises.
  | .opening, none => (h, ⟨.closed, c.sent⟩)
  | .reading, none => (h, c)
  | .closed, _ => (h, c)

/-! ## The whole response -/

/-- The response to a request that is not streamed. -/
inductive Reply where
  | error (message type : String) (status : Nat)
  | completion (request_id object model : String) (created : Rat) (finish_reason : Option String)
      (matched_stop : Option Int) (prompt_tokens completion_tokens : Nat) (content : List Char)

def generate_non_stream_response (rid : String) (request_info : HTTPRequestInfo d) : Reply :=
  .completion rid request_info.object request_info.model request_info.create_time
    request_info.finish_reason request_info.matched_stop request_info.prompt_tokens
    request_info.completion_tokens request_info.text

/-- One turn of the polling loop: a reply when the request is finished or gone. -/
def poll (rid : String) (h : HTTPHandler d) : HTTPHandler d × Option Reply :=
  match h.processing_requests.get? rid with
  | none => (h, some (.error "Request not found" "RequestNotFoundError" 400))
  | some request_info =>
    if request_info.is_finish then
      match request_info.error_message with
      | none => (h.release_request rid, some (generate_non_stream_response rid request_info))
      | some message =>
        if message = "" then
          (h.release_request rid, some (generate_non_stream_response rid request_info))
        else (h.release_request rid, some (.error message
          (request_info.error_type.getD "InternalServerError") request_info.error_status))
    else (h, none)

/-! ## Runs -/

/-- What happens at a server while it serves a request. Other clients have other request ids. -/
inductive Event where
  | message (message : IpcMessage)
  | next
  | create (rid : String) (stream : Bool) (model : Option String) (now : Rat)
  | close (rid : String)

/-- The server, the response of the request when it is a stream, and its reply otherwise. -/
structure Session (d : StreamingDetokenizer) where
  handler : HTTPHandler d
  connection : Connection
  reply : Option Reply

/-- The request comes in. -/
def Session.start (h : HTTPHandler d) (rid : String) (stream : Bool) (model : Option String)
    (now : Rat) : Session d :=
  ⟨h.create_request rid stream model now, ⟨.opening, []⟩, none⟩

/-- One event. A turn of the response is one of the stream, or of the polling loop. -/
def Session.step (rid : String) (stream : Bool) (s : Session d) : Event → Session d
  | .message message => { s with handler := s.handler.handle_message message }
  | .next =>
    if stream then
      let (handler, connection) := next_data rid s.handler s.connection
      { s with handler := handler, connection := connection }
    else if s.reply.isSome then s
    else
      let (handler, reply) := poll rid s.handler
      { s with handler := handler, reply := reply }
  | .create other stream model now =>
    if other = rid then s else { s with handler := s.handler.create_request other stream model now }
  | .close other => if other = rid then s else { s with handler := s.handler.close_stream other }

def Session.run (rid : String) (stream : Bool) (s : Session d) (events : List Event) : Session d :=
  events.foldl (Session.step rid stream) s

end parallax.server.http_server
