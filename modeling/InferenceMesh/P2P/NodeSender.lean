-- The node sender (GradientServer.start_node_sender in parallax/p2p/server.py):
-- a peer forwards the requests of a message around the ring, each to the next
-- peer of its own routing table. One handler stands around the whole message,
-- so the first request without a place in its table, and the first peer that
-- does not answer, end the forwarding for all the others.
import InferenceMesh.Lib.ExceptList
import InferenceMesh.Lib.Grouping
import InferenceMesh.Lib.StateExn
import InferenceMesh.P2P.MessageUtil
import Mathlib.Data.List.Cycle

open python ordered_dict grouping state_exn
open parallax.p2p.message_util

namespace parallax.p2p.server

/-! ## The sender -/

/-- What the sender reads of its server. -/
structure GradientServer where
  peer_id : String
  scheduler_addr : Option String
  block_start_index : Nat
  routing_table : Option (List String)

/-- The head rank without a scheduler waits until its routing table is set. -/
def GradientServer.waits (server : GradientServer) : Bool :=
  server.scheduler_addr.isNone && server.block_start_index == 0 && server.routing_table.isNone

/-- The messages in the socket, and what the next peers have taken so far. -/
structure NodeSender where
  inbox : List ForwardRequest
  sent : List (String × ForwardRequest)

/-- Set the routing table if not in scheduler mode. A table that is `None` was waited for. -/
def set_routing_table (server : GradientServer) (req : Req) : Except Exn Req :=
  if req.routing_table.length = 0 ∧ server.scheduler_addr = none then
    if server.block_start_index = 0 then
      .ok { req with routing_table := req.routing_table ++ server.routing_table.getD [] }
    else .error (.AssertionError "Request routing table is not set for non-head rank")
  else .ok req

def next_peer_id (peer_id : String) (routing_table : List String) : Except Exn String :=
  if h : routing_table.length > 0 then
    if peer_id ∈ routing_table then
      .ok (routing_table.get
        ⟨(routing_table.idxOf peer_id + 1) % routing_table.length, Nat.mod_lt _ h⟩)
    else .error (.RuntimeError "Can not find self in the routing table")
  else .error (.AssertionError "Request routing table is not set")

def group_requests_by_next_peer (server : GradientServer) (requests : List Req) :
    Except Exn (Dict String (List Req)) :=
  requests.foldlM (fun grouped_requests req => do
    let next_peer ← next_peer_id server.peer_id req.routing_table
    return push grouped_requests next_peer req) Dict.empty

/-- One call of the next peer. `call` says which peers raise, on the stub or on the call. -/
def rpc_pp_forward (call : String → Option Exn) (peer : String) (request : ForwardRequest) :
    EStateM Exn NodeSender PUnit :=
  match call peer with
  | some e => throw e
  | none => modify (fun s => { s with sent := s.sent ++ [(peer, request)] })

def raised {α : Type} : Except Exn α → EStateM Exn NodeSender α
  | .ok a => pure a
  | .error e => throw e

def forward (server : GradientServer) (call : String → Option Exn)
    (forward_request : ForwardRequest) : EStateM Exn NodeSender PUnit := do
  if forward_request.reqs.length = 0 then
    throw (.RuntimeError "No requests in the forward request")
  else
    let requests ← raised (forward_request.reqs.mapM (set_routing_table server))
    -- a request without a routing table is dropped
    let requests := requests.filter (fun req => decide (req.routing_table.length > 0))
    let grouped_requests ← raised (group_requests_by_next_peer server requests)
    grouped_requests.items.forM (fun x =>
      rpc_pp_forward call x.1
        { forward_mode := forward_request.forward_mode, reqs := x.2 })

/-- One round of the loop of `start_node_sender`. Its handler logs what was raised. -/
def start_node_sender (server : GradientServer) (call : String → Option Exn) :
    EStateM Exn NodeSender PUnit := do
  if server.waits then pure ⟨⟩
  else
    match (← get).inbox with
    | [] => pure ⟨⟩
    | forward_request :: rest =>
      modify (fun s => { s with inbox := rest })
      tryCatch (forward server call forward_request) (fun _ => pure ⟨⟩)

/-! ## What could be delivered -/

/-- The request with the routing table that it travels with. -/
def GradientServer.addressed (server : GradientServer) (req : Req) : Req :=
  if req.routing_table = [] ∧ server.scheduler_addr = none ∧ server.block_start_index = 0 then
    { req with routing_table := server.routing_table.getD [] }
  else req

/-- The cyclic successor of a peer in a table, and the peer itself outside of the table. -/
def successor (peer : String) (table : List String) : String :=
  if h : peer ∈ table then table.next peer h else peer

/-- Where this peer has to send a request. -/
def GradientServer.next_hop (server : GradientServer) (req : Req) : String :=
  successor server.peer_id req.routing_table

/-- The requests of a message whose routing table contains this peer. -/
def carried (server : GradientServer) (m : ForwardRequest) : List Req :=
  (m.reqs.map server.addressed).filter (fun req => decide (server.peer_id ∈ req.routing_table))

def answers (call : String → Option Exn) (peer : String) : Bool := (call peer).isNone

/-- The requests that can be delivered, each with the peer that has to get it. -/
def deliverable (server : GradientServer) (call : String → Option Exn) (m : ForwardRequest) :
    List (String × Req) :=
  ((carried server m).filter (fun req => answers call (server.next_hop req))).map
    (fun req => (server.next_hop req, req))

/-- The requests that were delivered, each with the peer that has got it. -/
def delivered (sent : List (String × ForwardRequest)) : List (String × Req) :=
  sent.flatMap (fun x => x.2.reqs.map (fun req => (x.1, req)))

/-- A peer passes the request on to the next one, so many times. -/
def hops (table : List String) (peer : String) : Nat → Except Exn String
  | 0 => .ok peer
  | n + 1 => do next_peer_id (← hops table peer n) table

/-- Nothing is lost that could be delivered, and the ring is closed. -/
structure LosesNothing (server : GradientServer) (call : String → Option Exn)
    (m : ForwardRequest) : Prop where
  forwards : ∀ rest sent, ∃ out,
    stateOf (start_node_sender server call ⟨m :: rest, sent⟩) = ⟨rest, sent ++ out⟩ ∧
      (delivered out).Perm (deliverable server call m) ∧
      ∀ x ∈ out, x.2.forward_mode = m.forward_mode
  returns : ∀ table : List String, table.Nodup → ∀ peer ∈ table,
    hops table peer table.length = .ok peer ∧
      ∃ visited, (List.range table.length).mapM (hops table peer) = .ok visited ∧
        visited.Perm table

/-- The request has a place in its table, or is one that is dropped. -/
def Usable (server : GradientServer) (req : Req) : Prop :=
  (req.routing_table = [] ∧ server.scheduler_addr = none → server.block_start_index = 0) ∧
    ((server.addressed req).routing_table = [] ∨
      server.peer_id ∈ (server.addressed req).routing_table)

/-- Nothing can be delivered; or each request is usable, and each peer that can be served is
the next hop of a request before the first one whose peer does not answer. -/
def Forwardable (server : GradientServer) (call : String → Option Exn)
    (m : ForwardRequest) : Prop :=
  deliverable server call m = [] ∨
    (∀ req ∈ m.reqs, Usable server req) ∧
      ∀ x ∈ deliverable server call m,
        x.1 ∈ ((carried server m).map server.next_hop).takeWhile (answers call)

/-! ## The next peer -/

theorem nextOr_eq (l : List String) (x d : String) (h : x ∈ l) :
    l.nextOr x d = (l[l.idxOf x + 1]?).getD d := by
  induction l with
  | nil => cases h
  | cons y rest ih =>
    rcases rest with _ | ⟨z, rest⟩
    · simp [List.nextOr]
    · unfold List.nextOr
      by_cases hxy : x = y
      · subst hxy
        simp
      · have hx : x ∈ z :: rest := (List.mem_cons.mp h).resolve_left hxy
        rw [if_neg hxy, ih hx, List.idxOf_cons_ne _ (Ne.symm hxy)]
        rfl

theorem next_peer_id.spec {peer : String} {table : List String} (h : peer ∈ table) :
    next_peer_id peer table = .ok (successor peer table) := by
  have hlt := List.idxOf_lt_length_of_mem h
  have hpos : table.length > 0 := by omega
  unfold next_peer_id successor List.next
  rw [dif_pos hpos, if_pos h, dif_pos h, nextOr_eq _ _ _ h]
  congr 1
  rcases Nat.lt_or_ge (table.idxOf peer + 1) table.length with hin | hend
  · simp [hin, Nat.mod_eq_of_lt hin]
  · have hlast : table.idxOf peer + 1 = table.length := by omega
    simp [hlast]

theorem mem_of_next_peer_id {peer next : String} {table : List String}
    (h : next_peer_id peer table = .ok next) : peer ∈ table := by
  unfold next_peer_id at h
  split at h
  · split at h
    · assumption
    · cases h
  · cases h

theorem next_peer_id_getElem {table : List String} (h : table.Nodup) (i : Nat)
    (hi : i < table.length) :
    next_peer_id table[i] table =
      .ok (table.get ⟨(i + 1) % table.length, Nat.mod_lt _ (by omega)⟩) := by
  have hmem : table[i] ∈ table := List.getElem_mem hi
  have hpos : table.length > 0 := by omega
  unfold next_peer_id
  rw [dif_pos hpos, if_pos hmem]
  simp [h.idxOf_getElem]

theorem hops.spec {table : List String} (h : table.Nodup) (i : Nat) (hi : i < table.length)
    (n : Nat) : hops table table[i] n =
      .ok (table.get ⟨(i + n) % table.length, Nat.mod_lt _ (by omega)⟩) := by
  induction n with
  | zero =>
    simp [hops, Nat.mod_eq_of_lt hi]
  | succ n ih =>
    unfold hops
    rw [ih]
    refine (next_peer_id_getElem h _ _).trans ?_
    simp [Nat.add_assoc]

/-- The walk around the ring. -/
theorem hops_return {table : List String} (h : table.Nodup) {peer : String} (hp : peer ∈ table) :
    hops table peer table.length = .ok peer ∧
      ∃ visited, (List.range table.length).mapM (hops table peer) = .ok visited ∧
        visited.Perm table := by
  obtain ⟨i, hi, rfl⟩ := List.getElem_of_mem hp
  refine ⟨?_, table.rotate i, ?_, List.rotate_perm table i⟩
  · rw [hops.spec h]
    simp [Nat.mod_eq_of_lt hi]
  · rw [except_list.mapM_of_ok (g := fun n =>
      table.get ⟨(i + n) % table.length, Nat.mod_lt _ (by omega)⟩) (fun n _ => hops.spec h i hi n)]
    congr 1
    refine List.ext_getElem (by simp) fun n _ _ => ?_
    simp [List.getElem_rotate, Nat.add_comm]

/-! ## One message -/

theorem set_routing_table.spec {server : GradientServer} {req : Req}
    (h : req.routing_table = [] ∧ server.scheduler_addr = none → server.block_start_index = 0) :
    set_routing_table server req = .ok (server.addressed req) := by
  unfold set_routing_table GradientServer.addressed
  by_cases hempty : req.routing_table = [] ∧ server.scheduler_addr = none
  · simp [hempty, h hempty]
  · rw [if_neg (by simpa using hempty), if_neg (fun hc => hempty ⟨hc.1, hc.2.1⟩)]

theorem set_routing_table_ok {server : GradientServer} {req req' : Req}
    (h : set_routing_table server req = .ok req') :
    req.routing_table = [] ∧ server.scheduler_addr = none → server.block_start_index = 0 := by
  intro hempty
  unfold set_routing_table at h
  rw [if_pos (by simpa using hempty)] at h
  split at h
  · assumption
  · cases h

theorem group_requests.spec {server : GradientServer} {requests : List Req}
    (h : ∀ req ∈ requests, server.peer_id ∈ req.routing_table) :
    group_requests_by_next_peer server requests = .ok (group server.next_hop requests) := by
  refine except_list.foldlM_of_ok fun grouped req hreq => ?_
  rw [next_peer_id.spec (h req hreq)]
  rfl

theorem group_requests_ok {server : GradientServer} {requests : List Req}
    {grouped : Dict String (List Req)}
    (h : group_requests_by_next_peer server requests = .ok grouped) :
    ∀ req ∈ requests, server.peer_id ∈ req.routing_table := by
  intro req hreq
  obtain ⟨_, _, hround⟩ := except_list.exists_of_foldlM_ok h hreq
  obtain ⟨_, hnext, _⟩ := except_list.bind_eq_ok.mp hround
  exact mem_of_next_peer_id hnext

/-- The groups are sent up to the first peer that does not answer. -/
theorem forM_rpc_pp_forward (call : String → Option Exn) (mode : ForwardMode)
    (groups : List (String × List Req)) (s : NodeSender) :
    stateOf (groups.forM (fun x => rpc_pp_forward call x.1 ⟨mode, x.2⟩) s) =
      ⟨s.inbox, s.sent ++ (groups.takeWhile (fun x => answers call x.1)).map
        (fun x => (x.1, ⟨mode, x.2⟩))⟩ := by
  induction groups generalizing s with
  | nil => simp [stateOf, pure, EStateM.pure]
  | cons x rest ih =>
    rcases hcall : call x.1 with _ | e
    · have hok : rpc_pp_forward call x.1 ⟨mode, x.2⟩ s =
          .ok ⟨⟩ ⟨s.inbox, s.sent ++ [(x.1, ⟨mode, x.2⟩)]⟩ := by
        unfold rpc_pp_forward
        rw [hcall]
        rfl
      rw [forM_cons_of_ok (f := fun y : String × List Req => rpc_pp_forward call y.1 ⟨mode, y.2⟩) hok,
        ih]
      simp [answers, hcall]
    · have herr : rpc_pp_forward call x.1 ⟨mode, x.2⟩ s = .error e s := by
        unfold rpc_pp_forward
        rw [hcall]
        rfl
      rw [forM_cons_of_error
        (f := fun y : String × List Req => rpc_pp_forward call y.1 ⟨mode, y.2⟩) herr]
      simp [stateOf, answers, hcall]

theorem raised_ok_bind {α β : Type} (a : α) (f : α → EStateM Exn NodeSender β) (s : NodeSender) :
    (raised (.ok a) >>= f) s = f a s := rfl

theorem raised_error_bind {α β : Type} (e : Exn) (f : α → EStateM Exn NodeSender β)
    (s : NodeSender) : (raised (.error e) >>= f) s = .error e s := rfl

/-- Requests that are all usable: what is left is what this peer carries. -/
theorem filter_addressed {server : GradientServer} {m : ForwardRequest}
    (h : ∀ req ∈ m.reqs, Usable server req) :
    (m.reqs.map server.addressed).filter (fun req => decide (req.routing_table.length > 0)) =
      carried server m := by
  unfold carried
  refine List.filter_congr fun req hreq => ?_
  obtain ⟨req, hin, rfl⟩ := List.mem_map.mp hreq
  rw [decide_eq_decide, gt_iff_lt, List.length_pos_iff]
  rcases (h req hin).2 with hempty | hmem
  · simp [hempty]
  · exact iff_of_true (List.ne_nil_of_mem hmem) hmem

/-- What a message sends whose requests are all usable. -/
def sends (server : GradientServer) (call : String → Option Exn) (m : ForwardRequest) :
    List (String × ForwardRequest) :=
  ((group server.next_hop (carried server m)).items.takeWhile (fun x => answers call x.1)).map
    (fun x => (x.1, ⟨m.forward_mode, x.2⟩))

theorem forward.spec {server : GradientServer} {call : String → Option Exn} {m : ForwardRequest}
    (h : ∀ req ∈ m.reqs, Usable server req) (s : NodeSender) :
    stateOf (forward server call m s) = ⟨s.inbox, s.sent ++ sends server call m⟩ := by
  unfold forward
  by_cases hlen : m.reqs.length = 0
  · rw [if_pos hlen]
    simp [sends, carried, List.length_eq_zero_iff.mp hlen, group, Dict.empty, stateOf, throw,
      throwThe, MonadExceptOf.throw, EStateM.throw]
  · rw [if_neg hlen, except_list.mapM_of_ok (fun req hreq => set_routing_table.spec (h req hreq).1),
      raised_ok_bind]
    have hcarried : ∀ req ∈ carried server m, server.peer_id ∈ req.routing_table :=
      fun req hreq => of_decide_eq_true (List.mem_filter.mp hreq).2
    rw [filter_addressed h, group_requests.spec hcarried, raised_ok_bind]
    exact forM_rpc_pp_forward call m.forward_mode _ s

/-- One request that is not usable, and nothing is sent. -/
theorem forward_unusable {server : GradientServer} {call : String → Option Exn}
    {m : ForwardRequest} (h : ¬ ∀ req ∈ m.reqs, Usable server req) (s : NodeSender) :
    stateOf (forward server call m s) = s := by
  unfold forward
  split
  · rfl
  rcases hset : m.reqs.mapM (set_routing_table server) with e | requests
  · rw [raised_error_bind]
    rfl
  · rw [raised_ok_bind]
    rcases hgroup : group_requests_by_next_peer server
        (requests.filter (fun req => decide (req.routing_table.length > 0))) with e | grouped
    · rw [raised_error_bind]
      rfl
    · -- both loops have come to their end, so each request was usable
      have hfill : ∀ req ∈ m.reqs, req.routing_table = [] ∧ server.scheduler_addr = none →
          server.block_start_index = 0 := by
        intro req hreq
        obtain ⟨req', hreq'⟩ := except_list.exists_of_mapM_ok hset hreq
        exact set_routing_table_ok hreq'
      rw [except_list.mapM_of_ok (fun req hreq => set_routing_table.spec (hfill req hreq))] at hset
      cases hset
      refine absurd (fun req hreq => ⟨hfill req hreq, ?_⟩) h
      refine or_iff_not_imp_left.mpr fun hne => group_requests_ok hgroup _ ?_
      exact List.mem_filter.mpr ⟨List.mem_map_of_mem hreq,
        decide_eq_true (List.length_pos_iff.mpr hne)⟩

theorem start_node_sender.spec {server : GradientServer} (hready : server.waits = false)
    (call : String → Option Exn) (m : ForwardRequest) (rest : List ForwardRequest)
    (sent : List (String × ForwardRequest)) :
    stateOf (start_node_sender server call ⟨m :: rest, sent⟩) =
      stateOf (forward server call m ⟨rest, sent⟩) := by
  unfold start_node_sender
  rw [hready]
  show stateOf (tryCatch (forward server call m) (fun _ => pure ⟨⟩) ⟨rest, sent⟩) = _
  rcases hrun : forward server call m ⟨rest, sent⟩ with ⟨_, s⟩ | ⟨e, s⟩
  · rw [tryCatch_of_ok hrun]
  · rw [tryCatch_of_error hrun]
    rfl

/-! ## The law of the ring -/

theorem delivered_sends (server : GradientServer) (call : String → Option Exn)
    (m : ForwardRequest) :
    (delivered (sends server call m)).Perm
      (((carried server m).filter (fun req => decide (server.next_hop req ∈
          ((carried server m).map server.next_hop).takeWhile (answers call)))).map
        (fun req => (server.next_hop req, req))) := by
  unfold delivered sends
  rw [List.flatMap_map]
  exact flatMap_takeWhile_perm server.next_hop (answers call) (carried server m)

/-- All that can be delivered is delivered just when no peer stands behind a failing one. -/
theorem delivered_sends_iff (server : GradientServer) (call : String → Option Exn)
    (m : ForwardRequest) :
    (delivered (sends server call m)).Perm (deliverable server call m) ↔
      ∀ x ∈ deliverable server call m,
        x.1 ∈ ((carried server m).map server.next_hop).takeWhile (answers call) := by
  have hinj : Function.Injective (fun req : Req => (server.next_hop req, req)) :=
    fun _ _ heq => (Prod.mk.inj heq).2
  have hsub : ∀ req : Req, decide (server.next_hop req ∈
      ((carried server m).map server.next_hop).takeWhile (answers call)) = true →
        answers call (server.next_hop req) = true :=
    fun req hreq => List.mem_takeWhile_imp (of_decide_eq_true hreq)
  have hperm := delivered_sends server call m
  rw [hperm.congr_left]
  unfold deliverable
  rw [List.map_perm_map_iff hinj, filter_perm_iff hsub]
  simp only [List.mem_map, List.mem_filter, decide_eq_true_eq]
  constructor
  · rintro hall _ ⟨req, ⟨hreq, hans⟩, rfl⟩
    exact hall req hreq hans
  · intro hall req hreq hans
    exact hall _ ⟨req, ⟨hreq, hans⟩, rfl⟩

/-- A message loses nothing that could be delivered just when it is forwardable: the single
handler makes one bad request, or one failing peer, a matter of them all. -/
theorem loses_nothing_iff {server : GradientServer} (hready : server.waits = false)
    (call : String → Option Exn) (m : ForwardRequest) :
    LosesNothing server call m ↔ Forwardable server call m := by
  by_cases husable : ∀ req ∈ m.reqs, Usable server req
  · have hrun : ∀ rest sent, stateOf (start_node_sender server call ⟨m :: rest, sent⟩) =
        ⟨rest, sent ++ sends server call m⟩ := fun rest sent =>
      (start_node_sender.spec hready call m rest sent).trans (forward.spec husable _)
    constructor
    · rintro ⟨hforwards, _⟩
      obtain ⟨out, hout, hperm, _⟩ := hforwards [] []
      rw [hrun] at hout
      cases hout
      exact Or.inr ⟨husable, (delivered_sends_iff server call m).mp hperm⟩
    · intro hcan
      have hall : ∀ x ∈ deliverable server call m,
          x.1 ∈ ((carried server m).map server.next_hop).takeWhile (answers call) := by
        rcases hcan with hnone | ⟨_, hall⟩
        · rw [hnone]
          exact fun x hx => absurd hx List.not_mem_nil
        · exact hall
      refine ⟨fun rest sent => ⟨_, hrun rest sent, (delivered_sends_iff server call m).mpr hall, ?_⟩,
        fun table hnodup peer hp => hops_return hnodup hp⟩
      intro x hx
      obtain ⟨_, _, rfl⟩ := List.mem_map.mp hx
      rfl
  · have hrun : ∀ rest sent, stateOf (start_node_sender server call ⟨m :: rest, sent⟩) =
        ⟨rest, sent⟩ := fun rest sent =>
      (start_node_sender.spec hready call m rest sent).trans (forward_unusable husable _)
    constructor
    · rintro ⟨hforwards, _⟩
      obtain ⟨out, hout, hperm, _⟩ := hforwards [] []
      rw [hrun] at hout
      cases hout
      exact Or.inl (List.nil_perm.mp hperm)
    · rintro (hnone | ⟨hall, _⟩)
      · refine ⟨fun rest sent => ⟨[], ?_, ?_, fun x hx => absurd hx List.not_mem_nil⟩,
          fun table hnodup peer hp => hops_return hnodup hp⟩
        · rw [hrun, List.append_nil]
        · rw [hnone]
          exact .refl _
      · exact absurd hall husable

/-- Peer a with two requests, for peer b and for peer c. -/
def two_next_peers : ForwardRequest where
  forward_mode := .DECODE
  reqs := [{ rid := "r", routing_table := ["a", "b"] }, { rid := "t", routing_table := ["a", "c"] }]

def peer_a : GradientServer := ⟨"a", some "scheduler", 0, none⟩

/-- The second peer is gone, which hurts nobody. -/
theorem the_last_peer_may_fail : LosesNothing peer_a
    (fun peer => if peer = "c" then some (.RuntimeError "unreachable") else none)
    two_next_peers := by
  refine (loses_nothing_iff (by decide) _ _).mpr (Or.inr ⟨?_, ?_⟩)
  · intro req hreq
    simp only [two_next_peers, List.mem_cons, List.not_mem_nil, or_false] at hreq
    rcases hreq with rfl | rfl <;> exact ⟨by decide, Or.inr (by decide)⟩
  · intro x hx
    have hb : ∀ y ∈ (deliverable peer_a
        (fun peer => if peer = "c" then some (.RuntimeError "unreachable") else none)
        two_next_peers).map Prod.fst, y = "b" := by decide +kernel
    rw [hb x.1 (List.mem_map_of_mem hx)]
    decide +kernel

/-- The first peer is gone, and the request for the second one is not sent either. -/
theorem a_failing_peer_stops_the_rest :
    ¬ ∀ (server : GradientServer) (call : String → Option Exn) (m : ForwardRequest),
      server.waits = false → (∀ req ∈ m.reqs, req.routing_table.Nodup) →
        LosesNothing server call m := by
  intro hall
  obtain ⟨hforwards, _⟩ := hall peer_a
    (fun peer => if peer = "b" then some (.RuntimeError "unreachable") else none)
    two_next_peers (by decide) (by decide)
  obtain ⟨out, hout, hperm, _⟩ := hforwards [] []
  have hsent : out = [] := (congrArg NodeSender.sent hout).symm
  subst hsent
  exact absurd hperm.length_eq (by decide +kernel)

end parallax.p2p.server
