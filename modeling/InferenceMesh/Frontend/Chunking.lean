-- What the cuts of a response have to do with the messages that are read from
-- it. A cut inside of a character garbles it, since each chunk is decoded for
-- itself, and a cut between the lines of an event takes it apart, since each
-- chunk begins with a new message.
import InferenceMesh.Frontend.StreamReaders

open utf8 text_lines

namespace frontend

/-! ## Texts of chunks -/

section texts

variable {bytes : List Byte}

/-- Bytes up to the end of a line. -/
def Ends (bytes : List Byte) : Prop := bytes = [] ∨ ∃ line, bytes = line ++ [newline]

theorem ends_terminated (bytes : List Byte) : Ends (terminated newline bytes) := by
  rcases last_line newline bytes with hnot | ⟨before, after, rfl, hnot⟩
  · exact Or.inl (terminated_of_not_mem hnot)
  · exact Or.inr ⟨before, terminated_append_cons hnot⟩

theorem Ends.of_append {x y : List Byte} (h : Ends (x ++ y)) : Ends y := by
  rcases List.eq_nil_or_concat y with rfl | ⟨line, last, rfl⟩
  · exact Or.inl rfl
  · rcases h with hnil | ⟨line', hline⟩
    · exact absurd hnil (by simp)
    · rw [List.concat_eq_append, ← List.append_assoc] at hline
      obtain ⟨_, hlast⟩ := List.append_inj' hline rfl
      exact Or.inr ⟨line, by rw [List.concat_eq_append, hlast]⟩

/-- When the bytes of the lines stand alone, the chunks give their characters one by one. -/
theorem decode_chunks {lines more : List Byte} (hsingle : SingleBytes lines) (hends : Ends lines)
    (hmore : newline ∉ more) {chunks : List (List Byte)}
    (hchunks : chunks.flatten = lines ++ more) :
    ∃ text, (chunks.map decode).flatten = lines.map alone ++ text ∧ '\n' ∉ text := by
  induction chunks generalizing lines with
  | nil =>
    obtain ⟨rfl, rfl⟩ := List.append_eq_nil_iff.mp hchunks.symm
    exact ⟨[], rfl, List.not_mem_nil⟩
  | cons chunk chunks ih =>
    rw [List.flatten_cons] at hchunks
    rcases List.append_eq_append_iff.mp hchunks with ⟨lines', rfl, hrest⟩ | ⟨chunk', rfl, rfl⟩
    · -- The chunk ends inside of the lines.
      obtain ⟨text, htext, hnot⟩ := ih hsingle.right_of_append hends.of_append hrest
      refine ⟨text, ?_, hnot⟩
      rw [List.map_cons, List.flatten_cons, htext, decode_single_bytes hsingle.left_of_append,
        List.map_append, List.append_assoc]
    · obtain ⟨hchunk', hrest⟩ := not_or.mp (fun h => hmore (List.mem_append.mpr h))
      have hfirst : ∃ text, decode (lines ++ chunk') = lines.map alone ++ text ∧ '\n' ∉ text := by
        rcases hends with rfl | ⟨line, rfl⟩
        · exact ⟨decode chunk', rfl, decode_newline_not hchunk'⟩
        · refine ⟨scan start chunk', ?_, scan_newline_not start_between hchunk'⟩
          rw [List.append_assoc]
          exact decode_lines hsingle chunk'
      obtain ⟨text, htext, hnot⟩ := hfirst
      refine ⟨text ++ (chunks.map decode).flatten, ?_, ?_⟩
      · rw [List.map_cons, List.flatten_cons, htext, List.append_assoc]
      · rw [List.mem_append, not_or]
        refine ⟨hnot, fun hmem => ?_⟩
        obtain ⟨piece, hpiece, hmem'⟩ := List.mem_flatten.mp hmem
        obtain ⟨c, hc, rfl⟩ := List.mem_map.mp hpiece
        exact decode_newline_not (fun h => hrest (List.mem_flatten.mpr ⟨c, hc, h⟩)) hmem'

/-- The lines of the chunks are those of the bytes, one character for each byte. -/
theorem lines_of_chunks (hsingle : SingleBytes (terminated newline bytes))
    {chunks : List (List Byte)} (hchunks : chunks.flatten = bytes) :
    complete '\n' (chunks.map decode).flatten =
      complete '\n' ((terminated newline bytes).map alone) := by
  have hsplit := terminated_append_rest newline bytes
  obtain ⟨text, htext, hnot⟩ := decode_chunks hsingle (ends_terminated bytes) (rest_not_mem bytes)
    (hchunks.trans hsplit.symm)
  have hnot' : '\n' ∉ rest '\n' ((terminated newline bytes).map alone) ++ text := by
    rw [List.mem_append, not_or]
    exact ⟨rest_not_mem _, hnot⟩
  rw [htext, complete_append, complete_of_not_mem hnot', List.append_nil]

/-- The chunks of a single byte each. -/
def single_chunks (bytes : List Byte) : List (List Byte) := bytes.map (fun byte => [byte])

theorem single_chunks_flatten (bytes : List Byte) : (single_chunks bytes).flatten = bytes := by
  unfold single_chunks
  rw [← List.flatMap_def, List.flatMap_singleton']

theorem single_chunks_decode (bytes : List Byte) :
    (single_chunks bytes).map decode = (bytes.map alone).map (fun c => [c]) := by
  unfold single_chunks
  rw [List.map_map, List.map_map]
  exact List.map_congr_left (fun byte _ => decode_single byte)

theorem single_chunks_text (bytes : List Byte) :
    ((single_chunks bytes).map decode).flatten = bytes.map alone := by
  rw [single_chunks_decode, ← List.flatMap_def, List.flatMap_singleton']

theorem terminated_alone (bytes : List Byte) :
    terminated '\n' (bytes.map alone) = (terminated newline bytes).map alone := by
  have hnot : ∀ {l : List Byte}, newline ∉ l → '\n' ∉ l.map alone := by
    intro l hl hmem
    obtain ⟨byte, hbyte, halone⟩ := List.mem_map.mp hmem
    exact hl ((alone_newline_iff byte).mp halone ▸ hbyte)
  rcases last_line newline bytes with h | ⟨before, after, rfl, h⟩
  · rw [terminated_of_not_mem h, terminated_of_not_mem (hnot h)]
    rfl
  · rw [terminated_append_cons h, List.map_append, List.map_cons,
      (alone_newline_iff newline).mpr rfl, terminated_append_cons (hnot h), List.map_append]
    rfl

/-- The whole text has fewer characters up to its last line than bytes, when some belong
together. -/
theorem length_terminated_decode_lt (h : ¬ SingleBytes (terminated newline bytes)) :
    (terminated '\n' (decode bytes)).length < (terminated newline bytes).length := by
  rcases last_line newline bytes with hnot | ⟨before, after, rfl, hnot⟩
  · rw [terminated_of_not_mem hnot] at h
    exact absurd List.isChain_nil h
  · rw [terminated_append_cons hnot] at h ⊢
    obtain ⟨text, hle, htext⟩ := decode_line before after
    have hlt := length_scan_lt h
    rw [htext, terminated_append_cons (scan_newline_not start_between hnot), List.length_append]
    exact Nat.lt_of_le_of_lt hle hlt

/-- Chunks of a single byte give the lines of the whole only when the bytes stand alone. -/
theorem lines_of_single_chunks
    (h : complete '\n' (bytes.map alone) = complete '\n' (decode bytes)) :
    SingleBytes (terminated newline bytes) := by
  by_contra hnot
  have hlt := length_terminated_decode_lt hnot
  have hlength := congrArg (fun lines : List Text =>
    (lines.map (fun line => line.length + 1)).sum) h
  rw [length_complete, length_complete, terminated_alone, List.length_map] at hlength
  omega

end texts

/-! ## Newline-delimited JSON -/

namespace http_stream

/-- Whatever the parser: the messages do not depend on the cuts. -/
def Invariant (bytes : List Byte) : Prop :=
  ∀ (M : Type) (JSON_parse : Text → Option JsValue) (after_fetch : JsValue → Option M)
    (chunks : List (List Byte)), chunks.flatten = bytes →
    read JSON_parse after_fetch [] chunks = read JSON_parse after_fetch [] [bytes]

theorem read_eq {M : Type} (JSON_parse : Text → Option JsValue) (after_fetch : JsValue → Option M)
    (buffer : Text) (chunks : List (List Byte)) : read JSON_parse after_fetch buffer chunks =
      (feed '\n' buffer (chunks.map decode)).flatten.filterMap
        (parse_message JSON_parse after_fetch) := by
  induction chunks generalizing buffer with
  | nil => rfl
  | cons chunk chunks ih =>
    rw [read, List.map_cons, feed, List.flatten_cons, List.filterMap_append, ← ih]
    rfl

/-- The messages are those of the lines. -/
theorem read_lines {M : Type} (JSON_parse : Text → Option JsValue)
    (after_fetch : JsValue → Option M) (chunks : List (List Byte)) :
    read JSON_parse after_fetch [] chunks =
      (complete '\n' (chunks.map decode).flatten).filterMap
        (parse_message JSON_parse after_fetch) := by
  rw [read_eq, feed_flatten List.not_mem_nil, List.nil_append]

def text_of : JsValue → Option Text
  | .string s => some s
  | _ => none

theorem invariant_iff (bytes : List Byte) :
    Invariant bytes ↔ SingleBytes (terminated newline bytes) := by
  constructor
  · intro h
    -- A parser that gives the line itself.
    have hread := h Text (fun line => some (.string line)) text_of (single_chunks bytes)
      (single_chunks_flatten bytes)
    have hparse : parse_message (fun line => some (.string line)) text_of = some := rfl
    rw [read_lines, read_lines, hparse, List.filterMap_some, List.filterMap_some,
      single_chunks_text, List.map_singleton, List.flatten_singleton] at hread
    exact lines_of_single_chunks hread
  · intro hsingle M JSON_parse after_fetch chunks hchunks
    rw [read_lines, read_lines, lines_of_chunks hsingle hchunks,
      lines_of_chunks hsingle (show [bytes].flatten = bytes from List.flatten_singleton)]

end http_stream

/-! ## Server-sent events -/

namespace chat

/-- What a line says of the message. -/
inductive Field where
  | event (value : Text)
  | id (value : Text)
  | data (value : Text)
  | other
  deriving DecidableEq

def Field.is_data : Field → Bool
  | .data _ => true
  | _ => false

def Field.is_id : Field → Bool
  | .id _ => true
  | _ => false

/-- The field of a line. Lines without a name, and comments, have none. -/
def field_of (line : Text) : Option Field :=
  match line.idxOf? ':' with
  | none => none
  | some 0 => none
  | some (before + 1) =>
    let colon_index := before + 1
    let field := trim (line.take colon_index)
    let value := trim (line.drop (colon_index + 1))
    if value.head? = some ':' then none
    else if field = "event".toList then some (.event value)
    else if field = "id".toList then some (.id value)
    else if field = "data".toList then some (.data value)
    else some .other

/-- The fields of the lines of a whole response. -/
def fields (bytes : List Byte) : List Field :=
  (complete '\n' (decode bytes)).filterMap field_of

section emission

variable (JSON_parse : Text → Option JsValue)

def Field.set (message : Message) : Field → Message
  | .event value => { message with event := value }
  | .id value => { message with id := some value }
  | .data value => { message with data := some (parse_data JSON_parse value) }
  | .other => message

/-- What is emitted for the fields that come after a message. -/
def emit (message : Message) : List Field → List Message
  | [] => []
  | field :: fields =>
    let message := field.set JSON_parse message
    (if message.data.isSome then [message] else []) ++ emit message fields

theorem process_line_of_none (message : Message) {line : Text} (h : field_of line = none) :
    process_line JSON_parse message line = (message, []) := by
  unfold field_of at h
  unfold process_line
  rcases hcolon : line.idxOf? ':' with _ | _ | colon_index
  · rfl
  · rfl
  · rw [hcolon] at h
    dsimp only at h ⊢
    split_ifs at h with hcomment
    rw [if_pos hcomment]

theorem process_line_of_some (message : Message) {line : Text} {field : Field}
    (h : field_of line = some field) : process_line JSON_parse message line =
      (field.set JSON_parse message,
        if (field.set JSON_parse message).data.isSome then [field.set JSON_parse message]
        else []) := by
  unfold field_of at h
  unfold process_line
  rcases hcolon : line.idxOf? ':' with _ | _ | colon_index
  · rw [hcolon] at h
    cases h
  · rw [hcolon] at h
    cases h
  · rw [hcolon] at h
    dsimp only at h ⊢
    split_ifs at h ⊢ <;> cases h <;> simp_all [Field.set]

theorem process_from_eq (message : Message) (lines : List Text) :
    process_from JSON_parse message lines = emit JSON_parse message (lines.filterMap field_of) := by
  induction lines generalizing message with
  | nil => rfl
  | cons line lines ih =>
    rw [process_from]
    cases hfield : field_of line with
    | none =>
      rw [process_line_of_none JSON_parse message hfield, List.filterMap_cons_none hfield]
      exact ih message
    | some field =>
      rw [process_line_of_some JSON_parse message hfield, List.filterMap_cons_some hfield]
      exact congrArg _ (ih _)

/-- The messages when every data line is taken for itself. -/
def message_of : Field → Option Message
  | .data value => some { data := some (parse_data JSON_parse value) }
  | _ => none

def single_messages (fields : List Field) : List Message :=
  fields.filterMap (message_of JSON_parse)

end emission

/-- The event that holds after a field. -/
def Field.event_after (event : Text) : Field → Text
  | .event value => value
  | _ => event

def last_event (fields : List Field) : Text := fields.foldl Field.event_after "message".toList

/-- Behind the first data line there are only data lines, and before it neither an id nor an event
that holds. -/
def Plain (fields : List Field) : Prop :=
  ∀ before value after, fields = before ++ .data value :: after →
    (∀ field ∈ before, field.is_data = false) →
    (∀ field ∈ after, field.is_data = true) ∧ (∀ field ∈ before, field.is_id = false) ∧
      last_event before = "message".toList

/-! ### One chunk of fields -/

section emission

variable {JSON_parse : Text → Option JsValue} {fields : List Field} {message : Message}

@[simp] theorem single_messages_data (value : Text) :
    single_messages JSON_parse (.data value :: fields) =
      { data := some (parse_data JSON_parse value) } :: single_messages JSON_parse fields := rfl

theorem single_messages_other {field : Field} (h : field.is_data = false) :
    single_messages JSON_parse (field :: fields) = single_messages JSON_parse fields := by
  cases field with
  | data value => cases h
  | event value => rfl
  | id value => rfl
  | other => rfl

theorem single_messages_append (fields more : List Field) :
    single_messages JSON_parse (fields ++ more) =
      single_messages JSON_parse fields ++ single_messages JSON_parse more :=
  List.filterMap_append

theorem single_messages_none (h : ∀ field ∈ fields, field.is_data = false) :
    single_messages JSON_parse fields = [] := by
  induction fields with
  | nil => rfl
  | cons field fields ih =>
    obtain ⟨hfield, hrest⟩ := List.forall_mem_cons.mp h
    rw [single_messages_other hfield, ih hrest]

theorem exists_data {field : Field} (h : field.is_data = true) : ∃ value, field = .data value := by
  cases field <;> simp_all [Field.is_data]

theorem first_data (fields : List Field) : (∀ field ∈ fields, field.is_data = false) ∨
    ∃ before value after, fields = before ++ .data value :: after ∧
      ∀ field ∈ before, field.is_data = false := by
  induction fields with
  | nil => exact Or.inl (by simp)
  | cons field fields ih =>
    cases hdata : field.is_data with
    | true =>
      obtain ⟨value, rfl⟩ := exists_data hdata
      exact Or.inr ⟨[], value, fields, rfl, by simp⟩
    | false =>
      rcases ih with hnone | ⟨before, value, after, rfl, hbefore⟩
      · refine Or.inl ?_
        simpa [hdata] using hnone
      · refine Or.inr ⟨field :: before, value, after, rfl, ?_⟩
        simpa [hdata] using hbefore

/-- The message after some fields. -/
def set_all (JSON_parse : Text → Option JsValue) (message : Message) (fields : List Field) :
    Message := fields.foldl (fun message field => field.set JSON_parse message) message

/-- Nothing is emitted before there is data. -/
theorem emit_before (hmessage : message.data = none)
    (hfields : ∀ field ∈ fields, field.is_data = false) (more : List Field) :
    (set_all JSON_parse message fields).data = none ∧
      emit JSON_parse message (fields ++ more) =
        emit JSON_parse (set_all JSON_parse message fields) more := by
  induction fields generalizing message with
  | nil => exact ⟨hmessage, rfl⟩
  | cons field fields ih =>
    obtain ⟨hfield, hrest⟩ := List.forall_mem_cons.mp hfields
    have hset : (field.set JSON_parse message).data = none := by
      cases field <;> simp_all [Field.set, Field.is_data]
    obtain ⟨hnone, hemit⟩ := ih hset hrest
    refine ⟨hnone, ?_⟩
    rw [List.cons_append, emit]
    simp only [hset, Option.isSome_none, Bool.false_eq_true, if_false, List.nil_append]
    exact hemit

/-- Each field emits once there is data. -/
theorem length_emit (hmessage : message.data.isSome = true) (fields : List Field) :
    (emit JSON_parse message fields).length = fields.length := by
  induction fields generalizing message with
  | nil => rfl
  | cons field fields ih =>
    have hset : (field.set JSON_parse message).data.isSome = true := by
      cases field <;> simp_all [Field.set]
    rw [emit]
    simp only [hset, if_true, List.length_append, List.length_cons, ih hset]
    exact Nat.add_comm _ _

/-- There are as many messages as fields only when all of them are data. -/
theorem all_data (h : (single_messages JSON_parse fields).length = fields.length) :
    ∀ field ∈ fields, field.is_data = true := by
  induction fields with
  | nil => simp
  | cons field fields ih =>
    cases hdata : field.is_data with
    | true =>
      obtain ⟨value, rfl⟩ := exists_data hdata
      rw [single_messages_data, List.length_cons, List.length_cons] at h
      exact List.forall_mem_cons.mpr ⟨rfl, ih (Nat.succ.inj h)⟩
    | false =>
      have hle : (single_messages JSON_parse fields).length ≤ fields.length :=
        List.length_filterMap_le _ _
      rw [single_messages_other hdata, List.length_cons] at h
      omega

/-- Data lines give a message each, with the event and the id that hold. -/
theorem emit_all_data (hevent : message.event = "message".toList) (hid : message.id = none)
    (hfields : ∀ field ∈ fields, field.is_data = true) :
    emit JSON_parse message fields = single_messages JSON_parse fields := by
  induction fields generalizing message with
  | nil => rfl
  | cons field fields ih =>
    obtain ⟨hfield, hrest⟩ := List.forall_mem_cons.mp hfields
    obtain ⟨value, rfl⟩ := exists_data hfield
    have hset : Field.set JSON_parse message (.data value) =
        { data := some (parse_data JSON_parse value) } := by
      unfold Field.set
      rw [hevent, hid]
    rw [emit, hset, single_messages_data]
    exact congrArg _ (ih rfl rfl hrest)

theorem set_all_event (fields : List Field) :
    (set_all JSON_parse message fields).event = fields.foldl Field.event_after message.event := by
  induction fields generalizing message with
  | nil => rfl
  | cons field fields ih =>
    have hset : (field.set JSON_parse message).event = field.event_after message.event := by
      cases field <;> rfl
    rw [List.foldl_cons, ← hset]
    exact ih

/-- There is no id after the fields just when none of them is one. -/
theorem set_all_id (hmessage : message.id = none) (fields : List Field) :
    (set_all JSON_parse message fields).id = none ↔ ∀ field ∈ fields, field.is_id = false := by
  have hkept : ∀ (fields : List Field) (message : Message), message.id ≠ none →
      (set_all JSON_parse message fields).id ≠ none := by
    intro fields
    induction fields with
    | nil => exact fun _ h => h
    | cons field fields ih =>
      intro message h
      refine ih (field.set JSON_parse message) ?_
      cases field <;> simp_all [Field.set]
  induction fields generalizing message with
  | nil => simp [set_all, hmessage]
  | cons field fields ih =>
    rw [List.forall_mem_cons]
    cases hid : field.is_id with
    | true =>
      have hset : (field.set JSON_parse message).id ≠ none := by
        cases field <;> simp_all [Field.set, Field.is_id]
      exact iff_of_false (hkept fields _ hset) (by simp)
    | false =>
      have hset : (field.set JSON_parse message).id = none := by
        cases field <;> simp_all [Field.set, Field.is_id]
      exact (ih hset).trans ⟨fun h => ⟨rfl, h⟩, And.right⟩

/-- The first data line emits a message with the event and the id that hold. -/
theorem emit_first {before : List Field} (hbefore : ∀ field ∈ before, field.is_data = false)
    (value : Text) (after : List Field) :
    ∃ message : Message, message.event = last_event before ∧
      message.id = (set_all JSON_parse {} before).id ∧
      message.data = some (parse_data JSON_parse value) ∧
      emit JSON_parse {} (before ++ .data value :: after) =
        message :: emit JSON_parse message after := by
  obtain ⟨_, hemit⟩ := @emit_before JSON_parse before {} rfl hbefore (.data value :: after)
  refine ⟨Field.set JSON_parse (set_all JSON_parse {} before) (.data value), ?_, rfl, rfl, ?_⟩
  · exact set_all_event before
  · rw [hemit]
    rfl

theorem single_messages_first {before : List Field}
    (hbefore : ∀ field ∈ before, field.is_data = false) (value : Text) (after : List Field) :
    single_messages JSON_parse (before ++ .data value :: after) =
      { data := some (parse_data JSON_parse value) } :: single_messages JSON_parse after := by
  rw [single_messages_append, single_messages_none hbefore, List.nil_append, single_messages_data]

/-- A chunk of fields gives the messages of its data lines just when it is plain. -/
theorem emit_eq_iff (fields : List Field) :
    emit JSON_parse {} fields = single_messages JSON_parse fields ↔ Plain fields := by
  constructor
  · rintro h before value after rfl hbefore
    obtain ⟨message, hevent, hid, hdata, hemit⟩ := @emit_first JSON_parse before hbefore value after
    rw [hemit, single_messages_first hbefore] at h
    obtain ⟨hmessage, hrest⟩ := List.cons.inj h
    have hlength := congrArg List.length hrest
    rw [length_emit (by rw [hdata]; rfl)] at hlength
    refine ⟨all_data hlength.symm, ?_, ?_⟩
    · rw [hmessage] at hid
      exact (set_all_id rfl before).mp hid.symm
    · rw [hmessage] at hevent
      exact hevent.symm
  · intro hplain
    rcases first_data fields with hnone | ⟨before, value, after, rfl, hbefore⟩
    · have hemit := (@emit_before JSON_parse fields {} rfl hnone []).2
      rw [List.append_nil] at hemit
      rw [hemit, single_messages_none hnone]
      rfl
    · obtain ⟨hafter, hids, hlast⟩ := hplain before value after rfl hbefore
      obtain ⟨message, hevent, hid, hdata, hemit⟩ :=
        @emit_first JSON_parse before hbefore value after
      have hmessage : message = { data := some (parse_data JSON_parse value) } := by
        have hnone := (@set_all_id JSON_parse {} rfl before).mpr hids
        rcases message with ⟨event, id, data⟩
        dsimp only at hevent hid hdata
        rw [hevent, hid, hdata, hlast, hnone]
      rw [hemit, single_messages_first hbefore, hmessage, emit_all_data rfl rfl hafter]

end emission

/-! ### All chunks -/

theorem last_event_of_append {fields more : List Field}
    (h : last_event (fields ++ more) = "message".toList) : last_event more = "message".toList := by
  have hcases : ∀ (more : List Field) (event : Text),
      more.foldl Field.event_after event = event ∨
        ∀ event', more.foldl Field.event_after event' = more.foldl Field.event_after event := by
    intro more
    induction more with
    | nil => exact fun _ => Or.inl rfl
    | cons field more ih =>
      intro event
      cases field with
      | event value => exact Or.inr (fun _ => rfl)
      | id value => exact ih event
      | data value => exact ih event
      | other => exact ih event
  unfold last_event at h ⊢
  rw [List.foldl_append] at h
  rcases hcases more "message".toList with hkept | hsame
  · exact hkept
  · rw [← hsame, h]

/-- A part of plain fields is plain. -/
theorem Plain.infix {fields part : List Field} (h : Plain fields) (hpart : part <:+: fields) :
    Plain part := by
  obtain ⟨left, right, rfl⟩ := hpart
  rintro before value after rfl hbefore
  rcases first_data left with hnone | ⟨before', value', after', rfl, hbefore'⟩
  · obtain ⟨hafter, hids, hlast⟩ := h (left ++ before) value (after ++ right) (by simp)
      (fun field hfield => (List.mem_append.mp hfield).elim (hnone field) (hbefore field))
    exact ⟨fun field hfield => hafter field (List.mem_append_left _ hfield),
      fun field hfield => hids field (List.mem_append_right _ hfield), last_event_of_append hlast⟩
  · -- Data came already, so that only data is left.
    obtain ⟨hafter, _, _⟩ := h before' value'
      (after' ++ before ++ .data value :: after ++ right) (by simp) hbefore'
    have hempty : before = [] := by
      by_contra hne
      obtain ⟨field, rest, rfl⟩ := List.exists_cons_of_ne_nil hne
      have hdata := hafter field (by simp)
      rw [hbefore field List.mem_cons_self] at hdata
      cases hdata
    subst hempty
    exact ⟨fun field hfield => hafter field (by simp [hfield]), by simp, rfl⟩

/-- A field for itself is plain. -/
theorem plain_of_length {fields : List Field} (h : fields.length ≤ 1) : Plain fields := by
  rintro before value after rfl _
  rw [List.length_append, List.length_cons] at h
  have hbefore : before = [] := List.eq_nil_of_length_eq_zero (by omega)
  have hafter : after = [] := List.eq_nil_of_length_eq_zero (by omega)
  subst hbefore hafter
  exact ⟨by simp, by simp, rfl⟩

/-- Whatever the parser: the messages do not depend on the cuts. -/
def Invariant (bytes : List Byte) : Prop :=
  ∀ (JSON_parse : Text → Option JsValue) (chunks : List (List Byte)), chunks.flatten = bytes →
    read JSON_parse [] chunks = read JSON_parse [] [bytes]

section reading

variable (JSON_parse : Text → Option JsValue)

theorem read_eq (buffer : Text) (chunks : List (List Byte)) : read JSON_parse buffer chunks =
    (feed '\n' buffer (chunks.map decode)).flatMap (process_lines JSON_parse) := by
  induction chunks generalizing buffer with
  | nil => rfl
  | cons chunk chunks ih =>
    rw [read, List.map_cons, feed, List.flatMap_cons, ← ih]
    rfl

theorem process_lines_eq (lines : List Text) :
    process_lines JSON_parse lines = emit JSON_parse {} (lines.filterMap field_of) :=
  process_from_eq JSON_parse {} lines

/-- The messages of all bytes at once are those of one chunk of lines. -/
theorem read_whole (bytes : List Byte) :
    read JSON_parse [] [bytes] = emit JSON_parse {} (fields bytes) := by
  rw [read_eq, List.map_singleton, feed, feed, List.nil_append, List.flatMap_singleton,
    process_lines_eq]
  rfl

/-- Chunks whose fields are plain give a message for each data line. -/
theorem read_plain {chunks : List (List Byte)}
    (h : ∀ lines ∈ feed '\n' [] (chunks.map decode), Plain (lines.filterMap field_of)) :
    read JSON_parse [] chunks = single_messages JSON_parse
      ((complete '\n' (chunks.map decode).flatten).filterMap field_of) := by
  have hflatten := @feed_flatten Char _ '\n' [] List.not_mem_nil (chunks.map decode)
  rw [List.nil_append] at hflatten
  rw [read_eq, ← hflatten]
  generalize feed '\n' [] (chunks.map decode) = batches at h
  induction batches with
  | nil => rfl
  | cons lines batches ih =>
    obtain ⟨hlines, hrest⟩ := List.forall_mem_cons.mp h
    rw [List.flatMap_cons, process_lines_eq, (emit_eq_iff _).mpr hlines, ih hrest,
      List.flatten_cons, List.filterMap_append, single_messages_append]

end reading

theorem fields_eq {bytes : List Byte} (hsingle : SingleBytes (terminated newline bytes))
    {chunks : List (List Byte)} (hchunks : chunks.flatten = bytes) :
    (complete '\n' (chunks.map decode).flatten).filterMap field_of = fields bytes := by
  unfold fields
  rw [lines_of_chunks hsingle hchunks,
    ← lines_of_chunks hsingle (show [bytes].flatten = bytes from List.flatten_singleton)]
  rw [List.map_singleton, List.flatten_singleton]

/-- With one character for each byte, the messages do not depend on the cuts just when the fields
are plain. -/
theorem invariant_iff {bytes : List Byte} (hsingle : SingleBytes (terminated newline bytes)) :
    Invariant bytes ↔ Plain (fields bytes) := by
  constructor
  · intro h
    have hchunks := single_chunks_flatten bytes
    have hread := h (fun _ => none) (single_chunks bytes) hchunks
    have hplain : ∀ lines ∈ feed '\n' [] ((single_chunks bytes).map decode),
        Plain (lines.filterMap field_of) := by
      rw [single_chunks_decode]
      intro lines hlines
      refine plain_of_length ((List.length_filterMap_le _ _).trans ?_)
      rcases feed_single List.not_mem_nil _ lines hlines with rfl | ⟨line, rfl⟩
      · exact Nat.zero_le _
      · exact Nat.le_refl _
    rw [read_plain _ hplain, fields_eq hsingle hchunks, read_whole] at hread
    exact (emit_eq_iff _).mp hread.symm
  · intro hplain JSON_parse chunks hchunks
    have hbatches : ∀ lines ∈ feed '\n' [] (chunks.map decode),
        Plain (lines.filterMap field_of) := by
      intro lines hlines
      refine hplain.infix ?_
      rw [← fields_eq hsingle hchunks]
      have hflatten := @feed_flatten Char _ '\n' [] List.not_mem_nil (chunks.map decode)
      rw [List.nil_append] at hflatten
      rw [← hflatten]
      obtain ⟨left, right, hsplit⟩ := List.append_of_mem hlines
      refine ⟨left.flatten.filterMap field_of, right.flatten.filterMap field_of, ?_⟩
      rw [hsplit]
      simp
    rw [read_plain _ hbatches, fields_eq hsingle hchunks, read_whole, (emit_eq_iff _).mpr hplain]

end chat

/-- Both readers are independent of the cuts just when no character of the lines takes more than one
byte, and, of the fields of the lines, none but data comes behind data, and before it neither an id
nor an event that holds. -/
theorem chunking_is_irrelevant_iff (bytes : List Byte) :
    http_stream.Invariant bytes ∧ chat.Invariant bytes ↔
      SingleBytes (terminated newline bytes) ∧ chat.Plain (chat.fields bytes) := by
  rw [http_stream.invariant_iff]
  constructor
  · rintro ⟨hsingle, hchat⟩
    exact ⟨hsingle, (chat.invariant_iff hsingle).mp hchat⟩
  · rintro ⟨hsingle, hplain⟩
    exact ⟨hsingle, (chat.invariant_iff hsingle).mpr hplain⟩

/-- The line `data: é`. -/
def accented_line : List Byte := [0x64, 0x61, 0x74, 0x61, 0x3A, 0x20, 0xC3, 0xA9, 0x0A]

/-- The same line, cut inside of its last character. -/
def accented_chunks : List (List Byte) :=
  [[0x64, 0x61, 0x74, 0x61, 0x3A, 0x20, 0xC3], [0xA9, 0x0A]]

/-- A letter with an accent that is cut becomes two replacement characters. -/
theorem cut_letter_is_garbled :
    ¬ ∀ bytes : List Byte, http_stream.Invariant bytes ∧ chat.Invariant bytes := by
  intro hall
  -- The letter is no JSON.
  have hread := (hall accented_line).2 (fun _ => none) accented_chunks rfl
  have hgarbled : chat.read (fun _ => none) [] accented_chunks =
      [{ data := some (.string [replacement, replacement]) }] := by
    rfl
  have hwhole : chat.read (fun _ => none) [] [accented_line] =
      [{ data := some (.string ['é']) }] := by
    rfl
  rw [hgarbled, hwhole] at hread
  have hdata := congrArg (fun messages => messages.map chat.Message.data) hread
  injection hdata with hhead
  injection hhead with hvalue
  injection hvalue with htext
  injection htext with _ hrest
  cases hrest

end frontend
