-- How a worker changes its layers (parallax/launch.py, parallax/p2p/server.py
-- and parallax/utils/shared_state.py). The announcer writes a new range and
-- then a flag, one key at a time. The launch loop resets the flag, stops the
-- executors, reads the range one key at a time, and starts them again.
import InferenceMesh.Scheduling.Scheduler

open Relation scheduling.scheduler

namespace parallax.launch

/-! ## The shared state -/

inductive ServerState where
  | JOINING
  | INITIALIZING
  | READY
  | OFFLINE
  | ERROR
  deriving DecidableEq

/-- The keys that the processes share. -/
structure SharedState where
  block_start_index : Option Int
  block_end_index : Option Int
  model_name : Option String
  tp_size : Option Nat
  _layer_allocation_changed : Bool
  status : Option ServerState

def SharedState.create : SharedState where
  block_start_index := none
  block_end_index := none
  model_name := none
  tp_size := none
  _layer_allocation_changed := false
  status := none

/-- An assignment to one key. -/
inductive Write where
  | block_start_index (value : Option Int)
  | block_end_index (value : Option Int)
  | model_name (value : Option String)
  | tp_size (value : Option Nat)
  | _layer_allocation_changed (value : Bool)
  | status (value : ServerState)
  deriving DecidableEq

def SharedState.set (s : SharedState) : Write → SharedState
  | .block_start_index value => { s with block_start_index := value }
  | .block_end_index value => { s with block_end_index := value }
  | .model_name value => { s with model_name := value }
  | .tp_size value => { s with tp_size := value }
  | ._layer_allocation_changed value => { s with _layer_allocation_changed := value }
  | .status value => { s with status := some value }

/-- The keys of `get_model_info`. -/
inductive Key where
  | model_name
  | block_start_index
  | block_end_index
  | tp_size
  | _layer_allocation_changed
  deriving DecidableEq

/-- The keys in the order in which they are read. -/
def get_model_info : List Key :=
  [.model_name, .block_start_index, .block_end_index, .tp_size, ._layer_allocation_changed]

/-- What has been read so far. Nobody looks at the flag among it. -/
structure ModelInfo where
  model_name : Option String
  block_start_index : Option Int
  block_end_index : Option Int
  tp_size : Option Nat

def ModelInfo.empty : ModelInfo := ⟨none, none, none, none⟩

def ModelInfo.read (info : ModelInfo) (s : SharedState) : Key → ModelInfo
  | .model_name => { info with model_name := s.model_name }
  | .block_start_index => { info with block_start_index := s.block_start_index }
  | .block_end_index => { info with block_end_index := s.block_end_index }
  | .tp_size => { info with tp_size := s.tp_size }
  | ._layer_allocation_changed => info

/-! ## The announcer -/

/-- The server of a worker. `writes` is what is left of an update of the shared state. -/
structure Announcer where
  block_start_index : Option Int
  block_end_index : Option Int
  model_name : Option String
  tp_size : Nat
  status : ServerState
  manual_layer_assignment : Bool
  _layer_allocation_changed : Bool
  joined : Bool
  writes : List Write

namespace Announcer

variable (a : Announcer)

/-- The update at the start of the process. -/
def first_update : List Write :=
  [.block_start_index a.block_start_index, .block_end_index a.block_end_index,
    .model_name a.model_name, .tp_size (some a.tp_size), .status a.status]

def _sync_to_shared_state : List Write :=
  [.block_start_index a.block_start_index, .block_end_index a.block_end_index,
    .model_name a.model_name, .tp_size (some a.tp_size), .status a.status,
    ._layer_allocation_changed a._layer_allocation_changed]

/-- The reply to the join. A manual worker keeps the range that it asked for. -/
def on_join (reply : LayerReply) : Announcer :=
  let b := if a.manual_layer_assignment then a else
    { a with block_start_index := some reply.start_layer, block_end_index := some reply.end_layer }
  let b := { b with model_name := some reply.model_name, tp_size := reply.tp_size, joined := true }
  { b with writes := b._sync_to_shared_state }

/-- The reply announces a range or a model that the worker does not have. -/
def differs (reply : LayerReply) : Prop :=
  some reply.start_layer ≠ a.block_start_index ∨ some reply.end_layer ≠ a.block_end_index ∨
    some reply.model_name ≠ a.model_name

instance (reply : LayerReply) : Decidable (a.differs reply) := by
  unfold differs; infer_instance

/-- The layer allocation has changed. -/
def change (reply : LayerReply) : Announcer :=
  let b := { a with
    block_start_index := some reply.start_layer
    block_end_index := some reply.end_layer
    model_name := if reply.model_name = "" then a.model_name else some reply.model_name
    _layer_allocation_changed := true
    status := .INITIALIZING }
  { b with writes := b._sync_to_shared_state }

/-- The reply to a heartbeat, or an empty one. -/
def on_heartbeat : Option LayerReply → Announcer
  | none =>
    { a with status := .JOINING, model_name := none, writes := [.status .JOINING, .model_name none] }
  | some reply => if a.differs reply then a.change reply else a

end Announcer

/-! ## The launch loop -/

structure Args where
  start_layer : Option Int
  end_layer : Option Int
  model_path : Option String
  tp_size : Nat

def _update_args_from_shared_state (args : Args) (info : ModelInfo) : Args where
  start_layer := info.block_start_index
  end_layer := info.block_end_index
  model_path :=
    match info.model_name with
    | some "" => args.model_path
    | some name => some name
    | none => args.model_path
  tp_size :=
    match info.tp_size with
    | some 0 => args.tp_size
    | some size => size
    | none => args.tp_size

/-- The executors of one launch. `loaded` counts those that have built their model. -/
structure Executors where
  start_layer : Option Int
  end_layer : Option Int
  tp_size : Nat
  loaded : Nat
  deriving DecidableEq

/-- Where the launch loop is. A list holds what is left to read or to write there. -/
inductive Phase where
  | awaiting (keys : List Key) (info : ModelInfo)
  | updating (keys : List Key) (info : ModelInfo)
  | starting
  | running
  | resetting (writes : List Write)
  | finished

/-- The update that resets the flag. -/
def reset_update : List Write := [._layer_allocation_changed false, .status .INITIALIZING]

/-- The processes of one worker. -/
structure Worker where
  shared : SharedState
  announcer : Announcer
  phase : Phase
  args : Args
  executors : Option Executors

/-- One operation on the shared state, or one step between two of them. -/
inductive Action where
  | write
  | join_reply (reply : LayerReply)
  | heartbeat_reply (reply : Option LayerReply)
  | read
  | got_model_info
  | start_executors
  | load
  | executors_exit
  | check_layer_change
  | reset
  | stop_executors
  deriving DecidableEq

/-- The next read of `get_model_info`. -/
def Worker.read_next (w : Worker) : Option Worker :=
  match w.phase with
  | .awaiting (k :: keys) info => some { w with phase := .awaiting keys (info.read w.shared k) }
  | .updating (k :: keys) info => some { w with phase := .updating keys (info.read w.shared k) }
  | _ => none

/-- All keys were read. The wait for an allocation goes on until the range and the model are there,
and the range is then read once more. -/
def Worker.use_model_info (w : Worker) : Option Worker :=
  match w.phase with
  | .awaiting [] info =>
    if info.block_start_index.isSome && info.block_end_index.isSome && info.model_name.isSome then
      some { w with phase := .updating get_model_info .empty }
    else some { w with phase := .awaiting get_model_info .empty }
  | .updating [] info =>
    some { w with args := _update_args_from_shared_state w.args info, phase := .starting }
  | _ => none

/-- One step of a worker. `none` means that the step cannot be taken here. -/
def Worker.step (w : Worker) : Action → Option Worker
  | .write =>
    match w.announcer.writes with
    | [] => none
    | x :: rest =>
      some { w with shared := w.shared.set x, announcer := { w.announcer with writes := rest } }
  | .join_reply reply =>
    if w.announcer.writes = [] ∧ w.announcer.joined = false then
      some { w with announcer := w.announcer.on_join reply }
    else none
  | .heartbeat_reply reply =>
    if w.announcer.writes = [] ∧ w.announcer.joined = true then
      some { w with announcer := w.announcer.on_heartbeat reply }
    else none
  | .read => w.read_next
  | .got_model_info => w.use_model_info
  | .start_executors =>
    match w.phase with
    | .starting =>
      some { w with
        executors := some ⟨w.args.start_layer, w.args.end_layer, w.args.tp_size, 0⟩
        phase := .running }
    | _ => none
  | .load =>
    match w.executors with
    | some x =>
      if x.loaded < x.tp_size then
        some { w with
          executors := some { x with loaded := x.loaded + 1 }
          shared := w.shared.set (.status .READY) }
      else none
    | none => none
  | .executors_exit =>
    match w.executors with
    | some _ => some { w with executors := none }
    | none => none
  | .check_layer_change =>
    match w.phase with
    | .running =>
      if w.shared._layer_allocation_changed then
        some { w with phase := .resetting reset_update }
      else if w.executors.isNone then some { w with phase := .finished }
      else some w
    | _ => none
  | .reset =>
    match w.phase with
    | .resetting (x :: rest) =>
      some { w with shared := w.shared.set x, phase := .resetting rest }
    | _ => none
  | .stop_executors =>
    match w.phase with
    | .resetting [] =>
      some { w with executors := none, phase := .updating get_model_info .empty }
    | _ => none

/-- The arguments of a worker. An end layer is only accepted with a start layer below it. -/
structure LaunchArgs where
  start_layer : Option Int
  end_layer : Option Int
  model_path : Option String
  tp_size : Nat
  validated : end_layer.isSome → start_layer.isSome

/-- A worker at its start. -/
def Worker.start (args : LaunchArgs) : Worker :=
  let a : Announcer :=
    { block_start_index := args.start_layer
      block_end_index := args.end_layer
      model_name := args.model_path
      tp_size := args.tp_size
      status := .JOINING
      manual_layer_assignment := args.end_layer.isSome && args.start_layer.isSome
      _layer_allocation_changed := false
      joined := false
      writes := [] }
  { shared := SharedState.create.set (.status .JOINING)
    announcer := { a with writes := a.first_update }
    phase := .awaiting get_model_info .empty
    args := ⟨args.start_layer, args.end_layer, args.model_path, args.tp_size⟩
    executors := none }

/-- The states that a worker reaches, whatever replies come in. -/
inductive Reachable (args : LaunchArgs) : Worker → Prop
  | start : Reachable args (.start args)
  | step {w w' : Worker} {action : Action} :
    Reachable args w → w.step action = some w' → Reachable args w'

/-! ## The invariant of the announcer -/

/-- A range comes before the flag that announces it, and its start before its end. -/
def Ordered (changed : Bool) : List Write → Prop
  | [] => True
  | .block_start_index _ :: rest =>
    (changed = true → ._layer_allocation_changed true ∈ rest) ∧ Ordered changed rest
  | .block_end_index _ :: rest =>
    (changed = true → ._layer_allocation_changed true ∈ rest) ∧
      (∀ value, .block_start_index value ∉ rest) ∧ Ordered changed rest
  | _ :: rest => Ordered changed rest

theorem Ordered.tail {changed : Bool} {x : Write} {rest : List Write}
    (h : Ordered changed (x :: rest)) : Ordered changed rest := by
  cases x with
  | block_start_index value => exact h.2
  | block_end_index value => exact h.2.2
  | _ => exact h

/-- A pending write of a range is followed by the flag. -/
theorem Ordered.signals {writes : List Write} (h : Ordered true writes) {value : Option Int}
    (hmem : .block_start_index value ∈ writes ∨ .block_end_index value ∈ writes) :
    ._layer_allocation_changed true ∈ writes := by
  induction writes with
  | nil => simp at hmem
  | cons x rest ih =>
    cases x with
    | block_start_index v => exact List.mem_cons_of_mem _ (h.1 rfl)
    | block_end_index v => exact List.mem_cons_of_mem _ (h.1 rfl)
    | _ =>
      refine List.mem_cons_of_mem _ (ih h ?_)
      simpa using hmem

/-- The flag is set, or the update in progress will set it. -/
def Worker.Signalled (w : Worker) : Prop :=
  w.shared._layer_allocation_changed = true ∨
    ._layer_allocation_changed true ∈ w.announcer.writes

/-- The announcer has a range of its own, and while it has not changed it, the shared state has
that range. -/
structure Worker.Ready (w : Worker) : Prop where
  given : w.announcer.joined = true ∨ w.announcer.manual_layer_assignment = true
  start_layer : w.announcer._layer_allocation_changed = false →
    w.shared.block_start_index = w.announcer.block_start_index
  end_layer : w.announcer._layer_allocation_changed = false →
    w.shared.block_end_index = w.announcer.block_end_index

/-- What holds of the announcer and the shared state. -/
structure Worker.Announces (w : Worker) : Prop where
  start_layer : w.shared.block_start_index = w.announcer.block_start_index ∨
    .block_start_index w.announcer.block_start_index ∈ w.announcer.writes
  end_layer : w.shared.block_end_index = w.announcer.block_end_index ∨
    .block_end_index w.announcer.block_end_index ∈ w.announcer.writes
  start_writes : ∀ value, .block_start_index value ∈ w.announcer.writes →
    value = w.announcer.block_start_index
  end_writes : ∀ value, .block_end_index value ∈ w.announcer.writes →
    value = w.announcer.block_end_index
  ordered : Ordered w.announcer._layer_allocation_changed w.announcer.writes
  unchanged : w.announcer._layer_allocation_changed = false → ¬ w.Signalled
  changed : w.announcer._layer_allocation_changed = true →
    ._layer_allocation_changed false ∉ w.announcer.writes
  joined : w.announcer._layer_allocation_changed = true → w.announcer.joined = true
  ungiven : w.announcer.joined = false → w.announcer.manual_layer_assignment = false →
    w.announcer.block_end_index = none
  known : w.shared.block_end_index ≠ none → w.Ready

theorem start_announces (args : LaunchArgs) : (Worker.start args).Announces := by
  refine ⟨?_, ?_, ?_, ?_, ?_, ?_, ?_, ?_, ?_, ?_⟩
  all_goals simp [Worker.start, Announcer.first_update, SharedState.create, SharedState.set,
    Ordered, Worker.Signalled]
  intro hnot
  by_contra hend
  have hsome : args.end_layer.isSome := Option.isSome_iff_ne_none.mpr hend
  have hstart := args.validated hsome
  rw [hnot hsome] at hstart
  cases hstart

/-- The rest of a worker, and a flag that is reset, are no matter of the announcer. -/
theorem Worker.Announces.congr {w w' : Worker} (h : w.Announces)
    (hannouncer : w'.announcer = w.announcer)
    (hstart : w'.shared.block_start_index = w.shared.block_start_index)
    (hend : w'.shared.block_end_index = w.shared.block_end_index)
    (hflag : w'.shared._layer_allocation_changed = true →
      w.shared._layer_allocation_changed = true) : w'.Announces := by
  refine ⟨?_, ?_, ?_, ?_, ?_, ?_, ?_, ?_, ?_, ?_⟩
  · rw [hannouncer, hstart]
    exact h.start_layer
  · rw [hannouncer, hend]
    exact h.end_layer
  · rw [hannouncer]
    exact h.start_writes
  · rw [hannouncer]
    exact h.end_writes
  · rw [hannouncer]
    exact h.ordered
  · unfold Worker.Signalled
    rw [hannouncer]
    intro hunchanged hsignalled
    exact h.unchanged hunchanged (hsignalled.imp_left hflag)
  · rw [hannouncer]
    exact h.changed
  · rw [hannouncer]
    exact h.joined
  · rw [hannouncer]
    exact h.ungiven
  · rw [hend]
    intro hknown
    obtain ⟨hgiven, hs, he⟩ := h.known hknown
    refine ⟨?_, ?_, ?_⟩
    · rw [hannouncer]
      exact hgiven
    · rw [hannouncer, hstart]
      exact hs
    · rw [hannouncer, hend]
      exact he

/-- The state after the next write of the announcer. -/
def Worker.written (w : Worker) (x : Write) (rest : List Write) : Worker :=
  { w with shared := w.shared.set x, announcer := { w.announcer with writes := rest } }

section written

variable {w : Worker} {x : Write} {rest : List Write}

theorem Worker.Announces.written_start (h : w.Announces) (hw : w.announcer.writes = x :: rest) :
    (w.written x rest).shared.block_start_index = w.announcer.block_start_index ∨
      .block_start_index w.announcer.block_start_index ∈ rest := by
  have hold := h.start_layer
  rw [hw, List.mem_cons] at hold
  cases x with
  | block_start_index value =>
    left
    exact h.start_writes value (by rw [hw]; exact List.mem_cons_self)
  | _ =>
    rcases hold with hold | hold | hold
    · exact Or.inl hold
    · cases hold
    · exact Or.inr hold

theorem Worker.Announces.written_end (h : w.Announces) (hw : w.announcer.writes = x :: rest) :
    (w.written x rest).shared.block_end_index = w.announcer.block_end_index ∨
      .block_end_index w.announcer.block_end_index ∈ rest := by
  have hold := h.end_layer
  rw [hw, List.mem_cons] at hold
  cases x with
  | block_end_index value =>
    left
    exact h.end_writes value (by rw [hw]; exact List.mem_cons_self)
  | _ =>
    rcases hold with hold | hold | hold
    · exact Or.inl hold
    · cases hold
    · exact Or.inr hold

/-- A write of the announcer takes no signal back. -/
theorem Worker.Announces.written_signalled (h : w.Announces) (hw : w.announcer.writes = x :: rest) :
    (w.written x rest).Signalled ↔ w.Signalled := by
  unfold Worker.Signalled
  rw [hw, List.mem_cons]
  cases x with
  | _layer_allocation_changed value =>
    cases value with
    | true => simp [Worker.written, SharedState.set]
    | false =>
      have hunchanged : w.announcer._layer_allocation_changed = false := by
        by_contra hchanged
        exact h.changed (by simpa using hchanged) (by rw [hw]; exact List.mem_cons_self)
      have hquiet := h.unchanged hunchanged
      unfold Worker.Signalled at hquiet
      rw [hw, List.mem_cons] at hquiet
      simp [Worker.written, SharedState.set] at hquiet ⊢
      simp [hquiet.1]
  | _ => simp [Worker.written, SharedState.set]

theorem Worker.Announces.written_ready (h : w.Announces) (hw : w.announcer.writes = x :: rest)
    (hready : w.Ready) : (w.written x rest).Ready := by
  refine ⟨hready.given, ?_, ?_⟩
  · intro hunchanged
    cases x with
    | block_start_index value => exact h.start_writes value (by rw [hw]; exact List.mem_cons_self)
    | _ => exact hready.start_layer hunchanged
  · intro hunchanged
    cases x with
    | block_end_index value => exact h.end_writes value (by rw [hw]; exact List.mem_cons_self)
    | _ => exact hready.end_layer hunchanged

theorem Worker.Announces.write (h : w.Announces) (hw : w.announcer.writes = x :: rest) :
    (w.written x rest).Announces := by
  refine ⟨h.written_start hw, h.written_end hw, ?_, ?_, ?_, ?_, ?_, h.joined, h.ungiven, ?_⟩
  · intro value hvalue
    exact h.start_writes value (by rw [hw]; exact List.mem_cons_of_mem _ hvalue)
  · intro value hvalue
    exact h.end_writes value (by rw [hw]; exact List.mem_cons_of_mem _ hvalue)
  · have hordered := h.ordered
    rw [hw] at hordered
    exact hordered.tail
  · rw [h.written_signalled hw]
    exact h.unchanged
  · intro hchanged hvalue
    exact h.changed hchanged (by rw [hw]; exact List.mem_cons_of_mem _ hvalue)
  · intro hknown
    by_cases hbefore : w.shared.block_end_index = none
    · cases x with
      | block_end_index value =>
        -- The end is the second of the two writes, so the start is there.
        have hvalue : value = w.announcer.block_end_index :=
          h.end_writes value (by rw [hw]; exact List.mem_cons_self)
        have hordered := h.ordered
        rw [hw] at hordered
        refine ⟨?_, fun _ => ?_, fun _ => hvalue⟩
        · by_contra hnot
          rw [not_or, Bool.not_eq_true, Bool.not_eq_true] at hnot
          exact hknown (hvalue.trans (h.ungiven hnot.1 hnot.2))
        · exact (h.written_start hw).resolve_right (hordered.2.1 _)
      | _ => exact (hknown hbefore).elim
    · exact h.written_ready hw (h.known hbefore)

end written

/-! ## Replies -/

/-- The state after a reply, when no write is left. -/
def Worker.replied (w : Worker) (a : Announcer) : Worker := { w with announcer := a }

theorem Worker.Announces.shared_range {w : Worker} (h : w.Announces)
    (hw : w.announcer.writes = []) :
    w.shared.block_start_index = w.announcer.block_start_index ∧
      w.shared.block_end_index = w.announcer.block_end_index := by
  refine ⟨h.start_layer.resolve_right ?_, h.end_layer.resolve_right ?_⟩
  · rw [hw]
    exact List.not_mem_nil
  · rw [hw]
    exact List.not_mem_nil

/-- An update of a worker that has joined. -/
theorem synced_announces {w : Worker} {a : Announcer} (hjoined : a.joined = true)
    (hflag : a._layer_allocation_changed = false → w.shared._layer_allocation_changed = false)
    (hknown : a._layer_allocation_changed = false → w.shared.block_end_index ≠ none →
      w.shared.block_start_index = a.block_start_index ∧
        w.shared.block_end_index = a.block_end_index) :
    (w.replied { a with writes := a._sync_to_shared_state }).Announces := by
  refine ⟨?_, ?_, ?_, ?_, ?_, ?_, ?_, ?_, ?_, ?_⟩
  · simp [Worker.replied, Announcer._sync_to_shared_state]
  · simp [Worker.replied, Announcer._sync_to_shared_state]
  · simp [Worker.replied, Announcer._sync_to_shared_state]
  · simp [Worker.replied, Announcer._sync_to_shared_state]
  · simp [Worker.replied, Announcer._sync_to_shared_state, Ordered]
  · intro hunchanged
    have hunchanged' : a._layer_allocation_changed = false := hunchanged
    simp [Worker.replied, Worker.Signalled, Announcer._sync_to_shared_state, hflag hunchanged',
      hunchanged']
  · intro hchanged
    have hchanged' : a._layer_allocation_changed = true := hchanged
    simp [Worker.replied, Announcer._sync_to_shared_state, hchanged']
  · exact fun _ => hjoined
  · intro hnot
    have hnot' : a.joined = false := hnot
    rw [hjoined] at hnot'
    cases hnot'
  · intro hend
    exact ⟨Or.inl hjoined, fun hunchanged => (hknown hunchanged hend).1,
      fun hunchanged => (hknown hunchanged hend).2⟩

/-- What a step of the announcer means for a range that was read before: it is still that of the
announcer, or the flag tells of another one. -/
structure Worker.Follows (w w' : Worker) : Prop where
  announces : w'.Announces
  ready : w.Ready → w'.Ready
  range : w.Ready → w'.Signalled ∨
    w'.announcer.block_start_index = w.announcer.block_start_index ∧
      w'.announcer.block_end_index = w.announcer.block_end_index ∧ (w.Signalled → w'.Signalled)

theorem Worker.Announces.written_follows {w : Worker} {x : Write} {rest : List Write}
    (h : w.Announces) (hw : w.announcer.writes = x :: rest) : w.Follows (w.written x rest) :=
  ⟨h.write hw, h.written_ready hw, fun _ => Or.inr ⟨rfl, rfl, (h.written_signalled hw).mpr⟩⟩

theorem Worker.Announces.join_follows {w : Worker} (h : w.Announces) (hw : w.announcer.writes = [])
    (hjoined : w.announcer.joined = false) (reply : LayerReply) :
    w.Follows (w.replied (w.announcer.on_join reply)) := by
  have hunchanged : w.announcer._layer_allocation_changed = false := by
    by_contra hchanged
    rw [h.joined (by simpa using hchanged)] at hjoined
    cases hjoined
  have hquiet := h.unchanged hunchanged
  have hflag : w.shared._layer_allocation_changed = false := by
    by_contra hset
    exact hquiet (Or.inl (by simpa using hset))
  obtain ⟨hstart, hend⟩ := h.shared_range hw
  rcases hmanual : w.announcer.manual_layer_assignment with _ | _
  · -- The worker has no end layer yet, so nobody has read a range.
    have hnone := h.ungiven hjoined hmanual
    have hidle : ¬ w.Ready := by
      intro hready
      rcases hready.given with hgiven | hgiven
      · rw [hjoined] at hgiven
        cases hgiven
      · rw [hmanual] at hgiven
        cases hgiven
    refine ⟨?_, fun hready => (hidle hready).elim, fun hready => (hidle hready).elim⟩
    unfold Announcer.on_join
    apply synced_announces
    · rfl
    · exact fun _ => hflag
    · exact fun _ hknown => (hknown (hend.trans hnone)).elim
  · have hkept : (w.announcer.on_join reply).block_start_index = w.announcer.block_start_index ∧
        (w.announcer.on_join reply).block_end_index = w.announcer.block_end_index := by
      simp [Announcer.on_join, hmanual]
    refine ⟨?_, ?_, fun _ => Or.inr ⟨hkept.1, hkept.2, fun hset => (hquiet hset).elim⟩⟩
    · unfold Announcer.on_join
      apply synced_announces
      · rfl
      · exact fun _ => hflag
      · intro _ _
        rw [hmanual]
        exact ⟨hstart, hend⟩
    · intro _
      exact ⟨Or.inl rfl, fun _ => hstart.trans hkept.1.symm, fun _ => hend.trans hkept.2.symm⟩

theorem Worker.Announces.heartbeat_follows {w : Worker} (h : w.Announces)
    (hw : w.announcer.writes = []) (hjoined : w.announcer.joined = true)
    (reply : Option LayerReply) : w.Follows (w.replied (w.announcer.on_heartbeat reply)) := by
  obtain ⟨hstart, hend⟩ := h.shared_range hw
  rcases reply with _ | reply
  · have hsignalled : w.Signalled ↔
        (w.replied (w.announcer.on_heartbeat none)).Signalled := by
      unfold Worker.Signalled
      simp [Worker.replied, Announcer.on_heartbeat, hw]
    refine ⟨⟨Or.inl hstart, Or.inl hend, ?_, ?_, ?_, ?_, ?_, h.joined, h.ungiven, ?_⟩, ?_, ?_⟩
    · simp [Worker.replied, Announcer.on_heartbeat]
    · simp [Worker.replied, Announcer.on_heartbeat]
    · simp [Worker.replied, Announcer.on_heartbeat, Ordered]
    · rw [← hsignalled]
      exact h.unchanged
    · simp [Worker.replied, Announcer.on_heartbeat]
    · exact fun _ => ⟨Or.inl hjoined, fun _ => hstart, fun _ => hend⟩
    · exact fun _ => ⟨Or.inl hjoined, fun _ => hstart, fun _ => hend⟩
    · exact fun _ => Or.inr ⟨rfl, rfl, hsignalled.mp⟩
  · by_cases hdiffers : w.announcer.differs reply
    · have hrun : w.announcer.on_heartbeat (some reply) = w.announcer.change reply :=
        if_pos hdiffers
      rw [hrun]
      refine ⟨?_, ?_, fun _ => Or.inl (Or.inr ?_)⟩
      · unfold Announcer.change
        apply synced_announces
        · exact hjoined
        · exact nofun
        · exact nofun
      · exact fun _ => ⟨Or.inl hjoined, nofun, nofun⟩
      · simp [Worker.replied, Announcer.change, Announcer._sync_to_shared_state]
    · have hrun : w.announcer.on_heartbeat (some reply) = w.announcer := if_neg hdiffers
      rw [hrun]
      exact ⟨h, fun hready => hready, fun _ => Or.inr ⟨rfl, rfl, fun hset => hset⟩⟩

/-! ## The invariant of the launch loop -/

/-- A start that was read is still that of the announcer, or the flag tells of another one. -/
def Worker.StartAgrees (w : Worker) (start_layer : Option Int) : Prop :=
  start_layer = w.announcer.block_start_index ∨ w.Signalled

def Worker.EndAgrees (w : Worker) (end_layer : Option Int) : Prop :=
  end_layer = w.announcer.block_end_index ∨ w.Signalled

/-- What holds of the launch loop. While it restarts the executors, nothing is said about the range
of those that still run. -/
def Worker.Reads (w : Worker) : Prop :=
  match w.phase with
  | .awaiting _ info => w.executors = none ∧ (info.block_end_index ≠ none → w.Ready)
  | .updating keys info => w.executors = none ∧ w.Ready ∧
      (.block_start_index ∉ keys → w.StartAgrees info.block_start_index) ∧
      (.block_end_index ∉ keys → w.EndAgrees info.block_end_index)
  | .starting => w.executors = none ∧ w.Ready ∧ w.StartAgrees w.args.start_layer ∧
      w.EndAgrees w.args.end_layer
  | .running => w.Ready ∧ ∀ x ∈ w.executors, w.StartAgrees x.start_layer ∧ w.EndAgrees x.end_layer
  | .resetting writes => w.Ready ∧ writes <:+ reset_update
  | .finished => w.executors = none

structure Worker.Invariant (w : Worker) : Prop where
  announces : w.Announces
  reads : w.Reads

theorem Worker.Follows.start_agrees {w w' : Worker} (h : w.Follows w') (hready : w.Ready)
    {start_layer : Option Int} (hagrees : w.StartAgrees start_layer) :
    w'.StartAgrees start_layer := by
  unfold Worker.StartAgrees at hagrees ⊢
  rcases h.range hready with hset | ⟨hstart, _, hset⟩
  · exact Or.inr hset
  · rw [hstart]
    exact hagrees.imp_right hset

theorem Worker.Follows.end_agrees {w w' : Worker} (h : w.Follows w') (hready : w.Ready)
    {end_layer : Option Int} (hagrees : w.EndAgrees end_layer) : w'.EndAgrees end_layer := by
  unfold Worker.EndAgrees at hagrees ⊢
  rcases h.range hready with hset | ⟨_, hend, hset⟩
  · exact Or.inr hset
  · rw [hend]
    exact hagrees.imp_right hset

/-- A step of the announcer keeps the invariant of the launch loop. -/
theorem Worker.Follows.reads {w w' : Worker} (h : w.Follows w') (hphase : w'.phase = w.phase)
    (hargs : w'.args = w.args) (hexecutors : w'.executors = w.executors) (hreads : w.Reads) :
    w'.Reads := by
  unfold Worker.Reads at hreads ⊢
  rw [hphase, hargs, hexecutors]
  rcases hp : w.phase with ⟨keys, info⟩ | ⟨keys, info⟩ | _ | _ | writes | _
  · rw [hp] at hreads
    exact ⟨hreads.1, fun hknown => h.ready (hreads.2 hknown)⟩
  · rw [hp] at hreads
    obtain ⟨hidle, hready, hstart, hend⟩ := hreads
    exact ⟨hidle, h.ready hready, fun hk => h.start_agrees hready (hstart hk),
      fun hk => h.end_agrees hready (hend hk)⟩
  · rw [hp] at hreads
    obtain ⟨hidle, hready, hstart, hend⟩ := hreads
    exact ⟨hidle, h.ready hready, h.start_agrees hready hstart, h.end_agrees hready hend⟩
  · rw [hp] at hreads
    obtain ⟨hready, hrange⟩ := hreads
    exact ⟨h.ready hready, fun x hx => ⟨h.start_agrees hready (hrange x hx).1,
      h.end_agrees hready (hrange x hx).2⟩⟩
  · rw [hp] at hreads
    exact ⟨h.ready hreads.1, hreads.2⟩
  · rw [hp] at hreads
    exact hreads

theorem Worker.Follows.invariant {w w' : Worker} (h : w.Follows w') (hphase : w'.phase = w.phase)
    (hargs : w'.args = w.args) (hexecutors : w'.executors = w.executors) (hinv : w.Invariant) :
    w'.Invariant := ⟨h.announces, h.reads hphase hargs hexecutors hinv.reads⟩

/-- What is read now agrees. -/
theorem Worker.Announces.read_start {w : Worker} (h : w.Announces) (hready : w.Ready) :
    w.StartAgrees w.shared.block_start_index := by
  rcases hchanged : w.announcer._layer_allocation_changed with _ | _
  · exact Or.inl (hready.start_layer hchanged)
  · rcases h.start_layer with hstart | hpending
    · exact Or.inl hstart
    · have hordered := h.ordered
      rw [hchanged] at hordered
      exact Or.inr (Or.inr (hordered.signals (Or.inl hpending)))

theorem Worker.Announces.read_end {w : Worker} (h : w.Announces) (hready : w.Ready) :
    w.EndAgrees w.shared.block_end_index := by
  rcases hchanged : w.announcer._layer_allocation_changed with _ | _
  · exact Or.inl (hready.end_layer hchanged)
  · rcases h.end_layer with hend | hpending
    · exact Or.inl hend
    · have hordered := h.ordered
      rw [hchanged] at hordered
      exact Or.inr (Or.inr (hordered.signals (Or.inr hpending)))

theorem Worker.Ready.congr {w w' : Worker} (h : w.Ready) (hannouncer : w'.announcer = w.announcer)
    (hstart : w'.shared.block_start_index = w.shared.block_start_index)
    (hend : w'.shared.block_end_index = w.shared.block_end_index) : w'.Ready := by
  refine ⟨?_, ?_, ?_⟩
  · rw [hannouncer]
    exact h.given
  · rw [hannouncer, hstart]
    exact h.start_layer
  · rw [hannouncer, hend]
    exact h.end_layer

/-! ## Steps of the launch loop -/

theorem read_next_invariant {w w' : Worker} (h : w.Invariant) (hstep : w.read_next = some w') :
    w'.Invariant := by
  have hreads := h.reads
  unfold Worker.Reads at hreads
  unfold Worker.read_next at hstep
  split at hstep
  · rename_i k keys info hp
    rw [hp] at hreads
    cases hstep
    refine ⟨h.announces.congr rfl rfl rfl (fun hset => hset), hreads.1, ?_⟩
    intro hknown
    have hready : w.Ready := by
      cases k with
      | block_end_index => exact h.announces.known hknown
      | _ => exact hreads.2 hknown
    exact hready.congr rfl rfl rfl
  · rename_i k keys info hp
    rw [hp] at hreads
    cases hstep
    obtain ⟨hidle, hready, hstart, hend⟩ := hreads
    refine ⟨h.announces.congr rfl rfl rfl (fun hset => hset), hidle, hready.congr rfl rfl rfl, ?_, ?_⟩
    · intro hk
      cases k with
      | block_start_index => exact h.announces.read_start hready
      | _ => exact hstart (by simpa using hk)
    · intro hk
      cases k with
      | block_end_index => exact h.announces.read_end hready
      | _ => exact hend (by simpa using hk)
  · cases hstep

theorem use_model_info_invariant {w w' : Worker} (h : w.Invariant)
    (hstep : w.use_model_info = some w') : w'.Invariant := by
  have hreads := h.reads
  unfold Worker.Reads at hreads
  unfold Worker.use_model_info at hstep
  split at hstep
  · rename_i info hp
    rw [hp] at hreads
    split at hstep
    · rename_i hfound
      cases hstep
      have hknown : info.block_end_index ≠ none := by
        simp only [Bool.and_eq_true] at hfound
        exact Option.isSome_iff_ne_none.mp hfound.1.2
      refine ⟨h.announces.congr rfl rfl rfl (fun hset => hset), hreads.1,
        (hreads.2 hknown).congr rfl rfl rfl, ?_, ?_⟩
      · exact fun hk => absurd (by decide) hk
      · exact fun hk => absurd (by decide) hk
    · cases hstep
      exact ⟨h.announces.congr rfl rfl rfl (fun hset => hset), hreads.1,
        fun hknown => (hknown rfl).elim⟩
  · rename_i info hp
    rw [hp] at hreads
    cases hstep
    obtain ⟨hidle, hready, hstart, hend⟩ := hreads
    exact ⟨h.announces.congr rfl rfl rfl (fun hset => hset), hidle, hready.congr rfl rfl rfl,
      hstart List.not_mem_nil, hend List.not_mem_nil⟩
  · cases hstep

/-- The invariant holds after each step. -/
theorem step_invariant {w w' : Worker} {action : Action} (h : w.Invariant)
    (hstep : w.step action = some w') : w'.Invariant := by
  have hreads := h.reads
  unfold Worker.Reads at hreads
  cases action with
  | write =>
    simp only [Worker.step] at hstep
    split at hstep
    · cases hstep
    · rename_i x rest hw
      cases hstep
      exact (h.announces.written_follows hw).invariant rfl rfl rfl h
  | join_reply reply =>
    simp only [Worker.step] at hstep
    split at hstep
    · rename_i hw
      cases hstep
      exact (h.announces.join_follows hw.1 hw.2 reply).invariant rfl rfl rfl h
    · cases hstep
  | heartbeat_reply reply =>
    simp only [Worker.step] at hstep
    split at hstep
    · rename_i hw
      cases hstep
      exact (h.announces.heartbeat_follows hw.1 hw.2 reply).invariant rfl rfl rfl h
    · cases hstep
  | read => exact read_next_invariant h hstep
  | got_model_info => exact use_model_info_invariant h hstep
  | start_executors =>
    simp only [Worker.step] at hstep
    split at hstep
    · rename_i hp
      rw [hp] at hreads
      cases hstep
      obtain ⟨_, hready, hstart, hend⟩ := hreads
      refine ⟨h.announces.congr rfl rfl rfl (fun hset => hset), hready.congr rfl rfl rfl, ?_⟩
      intro x hx
      cases hx
      exact ⟨hstart, hend⟩
    · cases hstep
  | load =>
    simp only [Worker.step] at hstep
    split at hstep
    · rename_i x hx
      split at hstep
      · cases hstep
        refine ⟨h.announces.congr rfl rfl rfl (fun hset => hset), ?_⟩
        unfold Worker.Reads
        -- Executors are only there while the loop waits on them, or restarts them.
        rcases hp : w.phase with ⟨keys, info⟩ | ⟨keys, info⟩ | _ | _ | writes | _
        · rw [hp, hx] at hreads
          cases hreads.1
        · rw [hp, hx] at hreads
          cases hreads.1
        · rw [hp, hx] at hreads
          cases hreads.1
        · rw [hp, hx] at hreads
          refine ⟨hreads.1.congr rfl rfl rfl, ?_⟩
          intro y hy
          cases hy
          exact hreads.2 x rfl
        · rw [hp] at hreads
          exact ⟨hreads.1.congr rfl rfl rfl, hreads.2⟩
        · rw [hp, hx] at hreads
          cases hreads
      · cases hstep
    · cases hstep
  | executors_exit =>
    simp only [Worker.step] at hstep
    split at hstep
    · cases hstep
      refine ⟨h.announces.congr rfl rfl rfl (fun hset => hset), ?_⟩
      unfold Worker.Reads
      rcases hp : w.phase with ⟨keys, info⟩ | ⟨keys, info⟩ | _ | _ | writes | _
      · rw [hp] at hreads
        exact ⟨rfl, fun hknown => (hreads.2 hknown).congr rfl rfl rfl⟩
      · rw [hp] at hreads
        exact ⟨rfl, hreads.2.1.congr rfl rfl rfl, hreads.2.2⟩
      · rw [hp] at hreads
        exact ⟨rfl, hreads.2.1.congr rfl rfl rfl, hreads.2.2⟩
      · rw [hp] at hreads
        exact ⟨hreads.1.congr rfl rfl rfl, nofun⟩
      · rw [hp] at hreads
        exact ⟨hreads.1.congr rfl rfl rfl, hreads.2⟩
      · rfl
    · cases hstep
  | check_layer_change =>
    simp only [Worker.step] at hstep
    split at hstep
    · rename_i hp
      rw [hp] at hreads
      split at hstep
      · cases hstep
        exact ⟨h.announces.congr rfl rfl rfl (fun hset => hset), hreads.1.congr rfl rfl rfl,
          List.suffix_refl _⟩
      · split at hstep
        · rename_i hnone
          cases hstep
          exact ⟨h.announces.congr rfl rfl rfl (fun hset => hset), Option.isNone_iff_eq_none.mp hnone⟩
        · cases hstep
          exact h
    · cases hstep
  | reset =>
    simp only [Worker.step] at hstep
    split at hstep
    · rename_i x rest hp
      rw [hp] at hreads
      cases hstep
      obtain ⟨hready, hsuffix⟩ := hreads
      have hx : x = ._layer_allocation_changed false ∨ x = .status .INITIALIZING := by
        simpa [reset_update] using hsuffix.subset List.mem_cons_self
      have hrest : rest <:+ reset_update := (List.suffix_cons x rest).trans hsuffix
      rcases hx with rfl | rfl
      · exact ⟨h.announces.congr rfl rfl rfl nofun, hready.congr rfl rfl rfl, hrest⟩
      · exact ⟨h.announces.congr rfl rfl rfl (fun hset => hset), hready.congr rfl rfl rfl, hrest⟩
    · cases hstep
  | stop_executors =>
    simp only [Worker.step] at hstep
    split at hstep
    · rename_i hp
      rw [hp] at hreads
      cases hstep
      refine ⟨h.announces.congr rfl rfl rfl (fun hset => hset), rfl, hreads.1.congr rfl rfl rfl,
        ?_, ?_⟩
      · exact fun hk => absurd (by decide) hk
      · exact fun hk => absurd (by decide) hk
    · cases hstep

theorem reachable_invariant {args : LaunchArgs} {w : Worker} (h : Reachable args w) :
    w.Invariant := by
  induction h with
  | start => exact ⟨start_announces args, rfl, fun hknown => (hknown rfl).elim⟩
  | step _ hstep ih => exact step_invariant ih hstep

/-! ## No update is lost -/

/-- The range that the announcer is writing, or has written last. -/
def Worker.last_written (w : Worker) : Option Int × Option Int :=
  (w.announcer.block_start_index, w.announcer.block_end_index)

def Executors.range (x : Executors) : Option Int × Option Int := (x.start_layer, x.end_layer)

/-- The launch loop has seen the flag, and has not stopped the executors yet. -/
def Worker.Restarting (w : Worker) : Prop := ∃ writes, w.phase = .resetting writes

/-- Between updates the shared state has the range that was written last. Executors that are not
being restarted run with that range, when the flag is not set and no write is half done; with any
other range the flag is set, or the write in progress will set it. -/
theorem no_layer_change_is_lost {args : LaunchArgs} {w : Worker} (h : Reachable args w) :
    (w.announcer.writes = [] →
      (w.shared.block_start_index, w.shared.block_end_index) = w.last_written) ∧
    ∀ x ∈ w.executors, w.Restarting ∨
      ((w.shared._layer_allocation_changed = false → w.announcer.writes = [] →
          x.range = w.last_written) ∧
        (x.range ≠ w.last_written → w.shared._layer_allocation_changed = true ∨
          ._layer_allocation_changed true ∈ w.announcer.writes)) := by
  have hinv := reachable_invariant h
  refine ⟨?_, ?_⟩
  · intro hw
    obtain ⟨hstart, hend⟩ := hinv.announces.shared_range hw
    exact Prod.ext hstart hend
  · intro x hx
    have hreads := hinv.reads
    unfold Worker.Reads at hreads
    rcases hp : w.phase with ⟨keys, info⟩ | ⟨keys, info⟩ | _ | _ | writes | _
    · rw [hp, hx] at hreads
      cases hreads.1
    · rw [hp, hx] at hreads
      cases hreads.1
    · rw [hp, hx] at hreads
      cases hreads.1
    · rw [hp] at hreads
      right
      obtain ⟨hstart, hend⟩ := hreads.2 x hx
      have hsame : ¬ w.Signalled → x.range = w.last_written := by
        intro hquiet
        exact Prod.ext (hstart.resolve_right hquiet) (hend.resolve_right hquiet)
      refine ⟨?_, ?_⟩
      · intro hflag hw
        apply hsame
        unfold Worker.Signalled
        rw [hflag, hw]
        simp
      · intro hne
        by_contra hquiet
        exact hne (hsame hquiet)
    · exact Or.inl ⟨writes, hp⟩
    · rw [hp, hx] at hreads
      cases hreads

/-! ## One change -/

def Worker.run (w : Worker) : List Action → Option Worker
  | [] => some w
  | action :: rest => (w.step action).bind (fun w' => w'.run rest)

theorem run_reachable {args : LaunchArgs} {w w' : Worker} {actions : List Action}
    (h : Reachable args w) (hrun : w.run actions = some w') : Reachable args w' := by
  induction actions generalizing w with
  | nil =>
    cases hrun
    exact h
  | cons action rest ih =>
    obtain ⟨w₁, hstep, hrest⟩ := Option.bind_eq_some_iff.mp hrun
    exact ih (.step h hstep) hrest

/-- A worker that takes whatever range it is given. -/
def automatic : LaunchArgs := ⟨none, none, none, 1, nofun⟩

/-- A range that a worker is told. -/
def told (start_layer end_layer : Int) : LayerReply := ⟨"a", "model", start_layer, end_layer, 1⟩

/-- The loop reads the keys, and uses them. -/
def reads : List Action := [.read, .read, .read, .read, .read, .got_model_info]

def writes (n : Nat) : List Action := List.replicate n .write

/-- A worker that joins with a first range, and is told another one. -/
def changed_once : List Action :=
  List.flatten [writes 5, [.join_reply (told 0 4)], writes 6, reads, reads,
    [.start_executors, .load, .heartbeat_reply (some (told 0 2))], writes 6]

/-- The loop has seen the change, and has reset the flag. -/
def noticed : List Action := List.flatten [changed_once, [.check_layer_change, .reset]]

/-- The executors are started again. -/
def restarted : List Action :=
  List.flatten [noticed, [.reset, .stop_executors], reads, [.start_executors, .load]]

/-- The worker after some actions. -/
def Worker.after (actions : List Action) : Worker :=
  ((Worker.start automatic).run actions).getD (.start automatic)

theorem after_reachable {actions : List Action}
    (h : ((Worker.start automatic).run actions).isSome = true) :
    Reachable automatic (.after actions) := by
  obtain ⟨w, hw⟩ := Option.isSome_iff_exists.mp h
  unfold Worker.after
  rw [hw]
  exact run_reachable .start hw

/-- After the restart the executors run with the range that was told last. -/
theorem restart_takes_the_new_range :
    (Worker.after restarted).executors.map Executors.range = some (some 0, some 2) := by
  have hreached : Reachable automatic (.after restarted) := after_reachable (by decide +kernel)
  have hlast : (Worker.after restarted).last_written = (some 0, some 2) := by decide +kernel
  have hrunning : (Worker.after restarted).executors.isSome = true := by decide +kernel
  obtain ⟨x, hx⟩ := Option.isSome_iff_exists.mp hrunning
  rw [hx, Option.map_some]
  rcases (no_layer_change_is_lost hreached).2 x hx with ⟨writes, hp⟩ | ⟨hsame, _⟩
  · cases hp
  · rw [hsame (by decide +kernel) (by decide +kernel), hlast]

/-- Between the reset of the flag and the stop, the executors still run with the old range. -/
theorem old_executors_outlive_the_flag :
    ¬ ∀ w, Reachable automatic w → ∀ x ∈ w.executors,
      w.shared._layer_allocation_changed = false → w.announcer.writes = [] →
        x.range = w.last_written := by
  intro hall
  have hreached : Reachable automatic (.after noticed) := after_reachable (by decide +kernel)
  have hold : (Worker.after noticed).executors = some ⟨some 0, some 4, 1, 1⟩ := by decide +kernel
  have hlast : (Worker.after noticed).last_written = (some 0, some 2) := by decide +kernel
  have hrange := hall _ hreached ⟨some 0, some 4, 1, 1⟩ hold (by decide +kernel)
    (by decide +kernel)
  rw [hlast] at hrange
  cases hrange

end parallax.launch
