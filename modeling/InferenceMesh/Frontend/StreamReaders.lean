-- The readers of the frontend's streams: newline-delimited JSON
-- (services/http-stream.ts) and server-sent events (services/chat.tsx). Both
-- decode each chunk of the response for itself, and keep the line that has not
-- ended yet.
import InferenceMesh.Lib.TextLines
import InferenceMesh.Lib.Utf8

open utf8

namespace frontend

abbrev Text := List Char

/-- A value of JSON, or what is made of one: an item that was null is undefined. -/
inductive JsValue where
  | null
  | undefined
  | boolean (b : Bool)
  | number (n : Float)
  | string (s : Text)
  | array (items : List JsValue)
  | object (fields : List (Text × JsValue))

def JsValue.is_null : JsValue → Bool
  | .null => true
  | _ => false

/-- `String.prototype.trim` takes these characters away. -/
def is_white_space (c : Char) : Bool :=
  c.toNat ∈ [0x09, 0x0A, 0x0B, 0x0C, 0x0D, 0x20, 0xA0, 0x1680, 0x2028, 0x2029, 0x202F, 0x205F, 0x3000,
    0xFEFF] || 0x2000 ≤ c.toNat && c.toNat ≤ 0x200A

def trim (s : Text) : Text := (s.dropWhile is_white_space).rdropWhile is_white_space

/-- The lines that end with a chunk, and the buffer after it. -/
def split_lines (buffer chunk : Text) : List Text × Text :=
  let lines := (buffer ++ chunk).splitOn '\n'
  (lines.dropLast, lines.getLast?.getD [])

/-! ## Newline-delimited JSON -/

namespace http_stream

variable {M : Type} (JSON_parse : Text → Option JsValue) (after_fetch : JsValue → Option M)

/-- The message of a line. An error of the parser or of `after_fetch` is caught, and the line is
left out. -/
def parse_message (line : Text) : Option M := (JSON_parse line).bind after_fetch

/-- The read loop, with the chunks that are still to come. -/
def read (buffer : Text) : List (List Byte) → List M
  | [] => []
  | value :: values =>
    let (lines, buffer) := split_lines buffer (decode value)
    lines.filterMap (parse_message JSON_parse after_fetch) ++ read buffer values

end http_stream

/-! ## Server-sent events -/

namespace chat

/-- A message. Its data is none until a data line comes; `JSON.parse` gives no undefined. -/
structure Message where
  event : Text := "message".toList
  id : Option Text := none
  data : Option JsValue := none

mutual

/-- Nulls are taken out: fields are deleted, items become undefined. -/
def walk : JsValue → JsValue
  | .array items => .array (walk_items items)
  | .object fields => .object (walk_fields fields)
  | data => data

def walk_items : List JsValue → List JsValue
  | [] => []
  | item :: items => (if item.is_null then .undefined else walk item) :: walk_items items

def walk_fields : List (Text × JsValue) → List (Text × JsValue)
  | [] => []
  | (key, value) :: fields =>
    if value.is_null then walk_fields fields else (key, walk value) :: walk_fields fields

end

variable (JSON_parse : Text → Option JsValue)

/-- The data of a line: JSON, or else the value as it is. -/
def parse_data (value : Text) : JsValue :=
  match JSON_parse value with
  | some data => walk data
  | none => .string value

/-- One line: the message after it, and what is emitted. -/
def process_line (message : Message) (line : Text) : Message × List Message :=
  match line.idxOf? ':' with
  | none => (message, [])
  | some 0 => (message, [])
  | some (before + 1) =>
    let colon_index := before + 1
    let field := trim (line.take colon_index)
    let value := trim (line.drop (colon_index + 1))
    -- A comment.
    if value.head? = some ':' then (message, [])
    else
      let message :=
        if field = "event".toList then { message with event := value }
        else if field = "id".toList then { message with id := some value }
        else if field = "data".toList then { message with data := some (parse_data JSON_parse value) }
        else message
      (message, if message.data.isSome then [message] else [])

def process_from (message : Message) : List Text → List Message
  | [] => []
  | line :: lines =>
    let (message, emitted) := process_line JSON_parse message line
    emitted ++ process_from message lines

/-- The lines of a chunk begin with a new message. -/
def process_lines (lines : List Text) : List Message := process_from JSON_parse {} lines

/-- The read loop, with the chunks that are still to come. -/
def read (buffer : Text) : List (List Byte) → List Message
  | [] => []
  | value :: values =>
    let (lines, buffer) := split_lines buffer (decode value)
    process_lines JSON_parse lines ++ read buffer values

end chat

end frontend
