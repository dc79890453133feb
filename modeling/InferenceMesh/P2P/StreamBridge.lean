-- The chat stream bridge (parallax/p2p/server.py, `_iter_blocking_stream` and
-- `chat_completion`). A worker thread puts what a producer enqueues into a
-- queue, and the generator on the other side takes it out and yields it.
import InferenceMesh.Lib.Channel
import InferenceMesh.Lib.PyExn

open Relation python fifo_channel

namespace parallax.p2p.server

abbrev Bytes : Type := List UInt8

/-! ## The queue -/

/-- The first part of a queued pair. -/
inductive Kind where
  | _STREAM_DONE
  | _STREAM_ERROR (exc : Exn)
  deriving DecidableEq

/-- An item of the queue. The worker puts its own pairs as tuples; the producer is given `q.put`
itself, so what it enqueues goes in as it is. -/
inductive Item where
  | raw (chunk : Bytes)
  | tuple (kind : Kind)
  deriving DecidableEq

/-- What the generator yields. -/
inductive Yielded where
  | bytes (chunk : Bytes)
  | int (byte : UInt8)
  deriving DecidableEq

/-- How a producer ends. -/
inductive Outcome where
  | returned
  | raised (exc : Exn)
  deriving DecidableEq

/-! ## The two threads -/

/-- Where the worker thread is: in the producer, in the handler of its exception, before the
last put of the `finally` block, or at its end. -/
inductive Worker where
  | producing (chunks : List Bytes) (outcome : Outcome)
  | handling (exc : Exn)
  | finishing
  | done
  deriving DecidableEq

/-- Where the generator is. -/
inductive Status where
  | running
  | ended
  | raised (exc : Exn)
  deriving DecidableEq

structure Generator where
  yielded : List Yielded
  status : Status
  deriving DecidableEq

/-- One turn of the generator's loop: the item is unpacked into a kind and a payload. A chunk of
two bytes unpacks into two numbers, and the second one is yielded. -/
def take (g : Generator) : Item → Generator
  | .tuple ._STREAM_DONE => { g with status := .ended }
  | .tuple (._STREAM_ERROR exc) => { g with status := .raised exc }
  | .raw [_, payload] => { g with yielded := g.yielded ++ [.int payload] }
  | .raw (_ :: _ :: _) =>
    { g with status := .raised (.ValueError "too many values to unpack (expected 2)") }
  | .raw chunk =>
    { g with
      status := .raised (.ValueError
        s!"not enough values to unpack (expected 2, got {chunk.length})") }

structure Bridge where
  worker : Worker
  q : List Item
  generator : Generator

/-- One step of one of the two threads. -/
inductive Step : Bridge → Bridge → Prop where
  | enqueue (chunk : Bytes) (chunks : List Bytes) (o : Outcome) (q : List Item) (g : Generator) :
      Step ⟨.producing (chunk :: chunks) o, q, g⟩ ⟨.producing chunks o, q ++ [.raw chunk], g⟩
  | returns (q : List Item) (g : Generator) :
      Step ⟨.producing [] .returned, q, g⟩ ⟨.finishing, q, g⟩
  | raises (exc : Exn) (q : List Item) (g : Generator) :
      Step ⟨.producing [] (.raised exc), q, g⟩ ⟨.handling exc, q, g⟩
  | handle (exc : Exn) (q : List Item) (g : Generator) :
      Step ⟨.handling exc, q, g⟩ ⟨.finishing, q ++ [.tuple (._STREAM_ERROR exc)], g⟩
  | finish (q : List Item) (g : Generator) :
      Step ⟨.finishing, q, g⟩ ⟨.done, q ++ [.tuple ._STREAM_DONE], g⟩
  | get (w : Worker) (item : Item) (q : List Item) (g : Generator) (h : g.status = .running) :
      Step ⟨w, item :: q, g⟩ ⟨w, q, take g item⟩

/-- Both threads at their start. -/
def _iter_blocking_stream (chunks : List Bytes) (outcome : Outcome) : Bridge :=
  ⟨.producing chunks outcome, [], ⟨[], .running⟩⟩

/-- The run is over: neither thread can go on. -/
def Final (b : Bridge) : Prop := ∀ b', ¬ Step b b'

/-! ## The bridge is a channel -/

/-- What the worker has still to put. -/
def Worker.pending : Worker → List Item
  | .producing chunks .returned => chunks.map .raw ++ [.tuple ._STREAM_DONE]
  | .producing chunks (.raised exc) =>
    chunks.map .raw ++ [.tuple (._STREAM_ERROR exc), .tuple ._STREAM_DONE]
  | .handling exc => [.tuple (._STREAM_ERROR exc), .tuple ._STREAM_DONE]
  | .finishing => [.tuple ._STREAM_DONE]
  | .done => []

def Bridge.channel (b : Bridge) : Channel Item Generator := ⟨b.worker.pending, b.q, b.generator⟩

def Running (g : Generator) : Prop := g.status = .running

instance : DecidablePred Running := fun g => inferInstanceAs (Decidable (g.status = .running))

/-- A step of the threads is a step of the channel, or one that only the worker sees. -/
theorem Step.channel {b b' : Bridge} (h : Step b b') :
    fifo_channel.Step take Running b.channel b'.channel ∨ b'.channel = b.channel := by
  cases h with
  | enqueue chunk chunks o q g =>
    left
    cases o <;> exact fifo_channel.Step.put (Item.raw chunk) _ q g
  | returns q g => right; rfl
  | raises exc q g => right; rfl
  | handle exc q g => left; exact fifo_channel.Step.put (.tuple (._STREAM_ERROR exc)) _ q g
  | finish q g => left; exact fifo_channel.Step.put (.tuple ._STREAM_DONE) _ q g
  | get w item q g hr => left; exact fifo_channel.Step.get item w.pending q g hr

theorem reachable_channel {b b' : Bridge} (h : ReflTransGen Step b b') :
    ReflTransGen (fifo_channel.Step take Running) b.channel b'.channel := by
  induction h with
  | refl => exact .refl
  | tail _ hstep ih =>
    rcases hstep.channel with hs | he
    · exact ih.tail hs
    · rw [he]; exact ih

/-- A bridge that cannot go on has a worker at its end. -/
theorem final_worker {b : Bridge} (h : Final b) : b.worker = .done := by
  obtain ⟨w, q, g⟩ := b
  cases w with
  | producing chunks o =>
    cases chunks with
    | cons chunk chunks => exact absurd (Step.enqueue chunk chunks o q g) (h _)
    | nil =>
      cases o with
      | returned => exact absurd (Step.returns q g) (h _)
      | raised exc => exact absurd (Step.raises exc q g) (h _)
  | handling exc => exact absurd (Step.handle exc q g) (h _)
  | finishing => exact absurd (Step.finish q g) (h _)
  | done => rfl

theorem final_channel {b : Bridge} (h : Final b) :
    ∀ c, ¬ fifo_channel.Step take Running b.channel c := by
  have hdone := final_worker h
  obtain ⟨w, q, g⟩ := b
  obtain rfl : w = .done := hdone
  intro c hc
  cases hc with
  | get x pending queue r hr => exact h _ (Step.get .done x queue g hr)

/-- Every interleaving comes to the same end. -/
theorem final_generator {chunks : List Bytes} {o : Outcome} {b : Bridge}
    (h : ReflTransGen Step (_iter_blocking_stream chunks o) b) (hf : Final b) :
    b.generator = consume take Running ⟨[], .running⟩ (Worker.producing chunks o).pending :=
  final_reader (reachable_channel h) (final_channel hf)

/-- A bound on the steps that are left: the steps of the channel, and the worker's own. -/
def Bridge.work (b : Bridge) : Nat :=
  2 * b.channel.work + match b.worker with
    | .producing _ _ => 1
    | _ => 0

theorem Step.work_lt {b b' : Bridge} (h : Step b b') : b'.work < b.work := by
  cases h with
  | enqueue chunk chunks o q g =>
    cases o <;> simp [Bridge.work, Bridge.channel, Channel.work, Worker.pending] <;> omega
  | returns q g => simp [Bridge.work, Bridge.channel, Channel.work, Worker.pending]
  | raises exc q g => simp [Bridge.work, Bridge.channel, Channel.work, Worker.pending]
  | handle exc q g => simp [Bridge.work, Bridge.channel, Channel.work, Worker.pending]; omega
  | finish q g => simp [Bridge.work, Bridge.channel, Channel.work, Worker.pending]; omega
  | get w item q g hr =>
    simp only [Bridge.work, Bridge.channel, Channel.work, List.length_cons]
    omega

/-- Every run can be driven to its end. -/
theorem reaches_final (b : Bridge) : ∃ b', ReflTransGen Step b b' ∧ Final b' := by
  by_cases h : Final b
  · exact ⟨b, .refl, h⟩
  · obtain ⟨b₁, hstep⟩ := not_forall_not.mp h
    have := hstep.work_lt
    obtain ⟨b₂, hreach, hf⟩ := reaches_final b₁
    exact ⟨b₂, .head hstep hreach, hf⟩
termination_by b.work

/-! ## What the generator yields -/

/-- A chunk of two bytes becomes a number. Any other chunk ends the generator. -/
theorem take_raw (g : Generator) (chunk : Bytes) :
    (chunk.length = 2 ∧ ∃ byte, take g (.raw chunk) =
      { g with yielded := g.yielded ++ [.int byte] }) ∨
    (chunk.length ≠ 2 ∧ ∃ exc, take g (.raw chunk) = { g with status := .raised exc }) := by
  rcases chunk with _ | ⟨a, _ | ⟨b, _ | ⟨c, rest⟩⟩⟩
  · exact Or.inr ⟨by decide, _, rfl⟩
  · exact Or.inr ⟨by simp, _, rfl⟩
  · exact Or.inl ⟨rfl, b, rfl⟩
  · exact Or.inr ⟨by simp, _, rfl⟩

/-- What was yielded stays yielded. -/
theorem consume_yielded (g : Generator) (items : List Item) :
    ∃ more, (consume take Running g items).yielded = g.yielded ++ more := by
  induction items generalizing g with
  | nil => exact ⟨[], by simp [consume]⟩
  | cons item rest ih =>
    rw [consume]
    split
    · obtain ⟨more, hmore⟩ := ih (take g item)
      have htake : ∃ new, (take g item).yielded = g.yielded ++ new := by
        cases item with
        | tuple kind => cases kind <;> exact ⟨[], by simp [take]⟩
        | raw chunk =>
          rcases take_raw g chunk with ⟨_, byte, h⟩ | ⟨_, exc, h⟩
          · exact ⟨[.int byte], by rw [h]⟩
          · exact ⟨[], by rw [h]; simp⟩
      obtain ⟨new, hnew⟩ := htake
      exact ⟨new ++ more, by rw [hmore, hnew, List.append_assoc]⟩
    · exact ⟨[], by simp⟩

theorem pending_cons (chunk : Bytes) (chunks : List Bytes) (o : Outcome) :
    (Worker.producing (chunk :: chunks) o).pending =
      .raw chunk :: (Worker.producing chunks o).pending := by
  cases o <;> rfl

/-- How the generator ends when something was enqueued: with a number as its first item, or with
nothing yielded and an exception of its own. -/
theorem first_chunk_is_lost (chunk : Bytes) (chunks : List Bytes) (o : Outcome) :
    let g := consume take Running ⟨[], .running⟩ (Worker.producing (chunk :: chunks) o).pending
    (chunk.length = 2 ∧ ∃ byte more, g.yielded = .int byte :: more) ∨
      (chunk.length ≠ 2 ∧ ∃ exc, g = ⟨[], .raised exc⟩) := by
  intro g
  have hg : g = consume take Running (take ⟨[], .running⟩ (.raw chunk))
      (Worker.producing chunks o).pending := by
    show consume take Running ⟨[], .running⟩ (Worker.producing (chunk :: chunks) o).pending = _
    rw [pending_cons, consume, if_pos (show Running ⟨[], .running⟩ from rfl)]
  rcases take_raw ⟨[], .running⟩ chunk with ⟨hlen, byte, h⟩ | ⟨hlen, exc, h⟩
  · left
    obtain ⟨more, hmore⟩ := consume_yielded (take ⟨[], .running⟩ (.raw chunk))
      (Worker.producing chunks o).pending
    refine ⟨hlen, byte, more, ?_⟩
    rw [hg, hmore, h]
    rfl
  · right
    refine ⟨hlen, exc, ?_⟩
    rw [hg, h]
    exact consume_stopped (by simp [Running]) _

/-- The end that the bridge is there for: the chunks in order, then the producer's own end. -/
def Outcome.delivered (chunks : List Bytes) : Outcome → Generator
  | .returned => ⟨chunks.map .bytes, .ended⟩
  | .raised exc => ⟨chunks.map .bytes, .raised exc⟩

/-- Every interleaving delivers the chunks. -/
def Delivers (chunks : List Bytes) (outcome : Outcome) : Prop :=
  ∀ b, ReflTransGen Step (_iter_blocking_stream chunks outcome) b → Final b →
    b.generator = outcome.delivered chunks

/-- The bridge delivers the empty stream, and no other. -/
theorem delivers_iff_empty (chunks : List Bytes) (o : Outcome) : Delivers chunks o ↔ chunks = [] := by
  constructor
  · intro h
    cases chunks with
    | nil => rfl
    | cons chunk chunks =>
      obtain ⟨b, hreach, hf⟩ := reaches_final (_iter_blocking_stream (chunk :: chunks) o)
      have hgen := h b hreach hf
      rw [final_generator hreach hf] at hgen
      rcases first_chunk_is_lost chunk chunks o with ⟨_, byte, more, hy⟩ | ⟨_, exc, hy⟩
      · rw [hgen] at hy
        cases o <;> simp [Outcome.delivered] at hy
      · rw [hgen] at hy
        cases o <;> simp [Outcome.delivered] at hy
  · rintro rfl b hreach hf
    rw [final_generator hreach hf]
    cases o <;> rfl

/-! ## Chat completions -/

/-- What the local server answers: the pieces of the body as they come in, and how the
connection ends. -/
structure Response where
  pieces : List Bytes
  outcome : Outcome

def Response.body (r : Response) : Bytes := r.pieces.flatten

/-- What `_produce` enqueues, and how it ends. `reencode` reads the body of the answer as JSON
and writes it again. -/
def _produce (reencode : Bytes → Except Exn Bytes) (stream : Bool) (r : Response) :
    List Bytes × Outcome :=
  if stream then (r.pieces.filter (fun chunk => !chunk.isEmpty), r.outcome)
  else
    match r.outcome with
    | .raised exc => ([], .raised exc)
    | .returned =>
      match reencode r.body with
      | .error exc => ([], .raised exc)
      | .ok response => ([response], .returned)

/-- `b"internal server error"` -/
def internal_server_error : Bytes :=
  [105, 110, 116, 101, 114, 110, 97, 108, 32, 115, 101, 114, 118, 101, 114, 32, 101, 114, 114, 111,
    114]

/-- What `chat_completion` yields: the items of the stream, and the error text after an
exception. -/
def chat_completion (g : Generator) : List Yielded :=
  match g.status with
  | .raised _ => g.yielded ++ [.bytes internal_server_error]
  | _ => g.yielded

/-- The concatenation of what was yielded, when it is all bytes. -/
def joined : List Yielded → Option Bytes
  | [] => some []
  | .bytes chunk :: rest => (joined rest).map (chunk ++ ·)
  | .int _ :: _ => none

/-- Every interleaving yields the bytes of the answer. -/
def ChatDelivers (reencode : Bytes → Except Exn Bytes) (stream : Bool) (r : Response) : Prop :=
  ∀ b, ReflTransGen Step (_iter_blocking_stream (_produce reencode stream r).1
      (_produce reencode stream r).2) b → Final b →
    joined (chat_completion b.generator) = some r.body

theorem joined_int (byte : UInt8) (more : List Yielded) (g : Generator)
    (h : g.yielded = .int byte :: more) : joined (chat_completion g) = none := by
  unfold chat_completion
  split <;> rw [h] <;> rfl

/-- What a chat completion yields for what `_produce` enqueues. -/
theorem chat_delivers_iff {reencode : Bytes → Except Exn Bytes} {stream : Bool} {r : Response}
    (chunks : List Bytes) (o : Outcome) (hp : _produce reencode stream r = (chunks, o)) :
    ChatDelivers reencode stream r ↔ (chunks = [] ∧ o = .returned ∧ r.body = []) ∨
      (r.body = internal_server_error ∧ (chunks = [] → o ≠ .returned) ∧
        ∀ chunk ∈ chunks.head?, chunk.length ≠ 2) := by
  have hall : ChatDelivers reencode stream r ↔ joined (chat_completion
      (consume take Running ⟨[], .running⟩ (Worker.producing chunks o).pending)) = some r.body := by
    unfold ChatDelivers
    rw [hp]
    constructor
    · intro h
      obtain ⟨b, hreach, hf⟩ := reaches_final (_iter_blocking_stream chunks o)
      have hj := h b hreach hf
      rwa [final_generator hreach hf] at hj
    · intro h b hreach hf
      rwa [final_generator hreach hf]
  rw [hall]
  have hsome : ∀ x : Bytes, some x = some r.body ↔ r.body = x :=
    fun x => Option.some_inj.trans eq_comm
  cases chunks with
  | nil =>
    cases o with
    | returned =>
      have hj : joined (chat_completion (consume take Running ⟨[], .running⟩
          (Worker.producing [] .returned).pending)) = some [] := rfl
      rw [hj, hsome]
      simp
    | raised exc =>
      have hj : joined (chat_completion (consume take Running ⟨[], .running⟩
          (Worker.producing [] (.raised exc)).pending)) = some internal_server_error := rfl
      rw [hj, hsome]
      simp
  | cons chunk chunks =>
    rcases first_chunk_is_lost chunk chunks o with ⟨hlen, byte, more, hy⟩ | ⟨hlen, exc, hy⟩
    · rw [joined_int byte more _ hy]
      simp [hlen]
    · have hj : joined (chat_completion ⟨[], .raised exc⟩) = some internal_server_error := rfl
      rw [hy, hj, hsome]
      simp [hlen]

/-- The bridge delivers what a producer enqueues just when that is nothing. A streamed answer
gets through when it has no bytes, and otherwise only looks right when it is the error text; an
answer in one piece never gets through, and only looks right when it is the error text. -/
theorem bridge_delivers_only_nothing (chunks : List Bytes) (o : Outcome)
    (reencode : Bytes → Except Exn Bytes) (r : Response) :
    (Delivers chunks o ↔ chunks = []) ∧
    (ChatDelivers reencode true r ↔
      (r.body = [] ∧ r.outcome = .returned) ∨ (r.body = internal_server_error ∧
        ∀ chunk ∈ (r.pieces.filter (fun chunk => !chunk.isEmpty)).head?, chunk.length ≠ 2)) ∧
    (ChatDelivers reencode false r ↔
      r.body = internal_server_error ∧
        ¬ (r.outcome = .returned ∧ ∃ response, reencode r.body = .ok response ∧
          response.length = 2)) := by
  refine ⟨delivers_iff_empty chunks o, ?_, ?_⟩
  · have hempty : r.pieces.filter (fun chunk => !chunk.isEmpty) = [] ↔ r.body = [] := by
      simp [Response.body]
    rw [chat_delivers_iff (r.pieces.filter (fun chunk => !chunk.isEmpty)) r.outcome rfl, hempty]
    constructor
    · rintro (⟨h, ho, _⟩ | ⟨h, _, hc⟩)
      · exact Or.inl ⟨h, ho⟩
      · exact Or.inr ⟨h, hc⟩
    · rintro (⟨h, ho⟩ | ⟨h, hc⟩)
      · exact Or.inl ⟨h, ho, h⟩
      · refine Or.inr ⟨h, ?_, hc⟩
        intro hnil
        rw [h] at hnil
        cases hnil
  · have hne : r.body = internal_server_error → r.body ≠ [] := by
      intro h hnil
      rw [h] at hnil
      cases hnil
    rcases ho : r.outcome with _ | exc
    · rcases hr : reencode r.body with exc | response
      · rw [chat_delivers_iff [] (.raised exc) (by simp [_produce, ho, hr])]
        simp
      · rw [chat_delivers_iff [response] .returned (by simp [_produce, ho, hr])]
        simp
    · rw [chat_delivers_iff [] (.raised exc) (by simp [_produce, ho])]
      simp

/-- The producer enqueues `b"hello"` and returns. -/
theorem hello_is_lost : ¬ Delivers [[104, 101, 108, 108, 111]] .returned := by
  intro h
  have hempty := (delivers_iff_empty _ _).mp h
  cases hempty

end parallax.p2p.server
