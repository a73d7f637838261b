import Mathlib.Data.List.Nodup
import AttentionBroker.Infra.Parties
import AttentionBroker.Node.MessageBroker

/-!
# The calls of a broker

`atom_space_node/MessageBroker.{h,cc}`, for the calls that the threads of one node make on its
`SynchronousGRPC`: `add_peer`, `broadcast`, `send` and the body of the inbox loop. Here the mutex
of the peers and the channels are part of the state.

Each call is written in the pieces that other threads can come between. `sent` is a record of the
calls of `execute_message`, and no step reads it. What `Message::act` does to the broker are further
calls.
-/

namespace AttentionBroker

open Infra

/-- Which `grpc::ClientContext` a call of `execute_message` uses. -/
inductive ClientContext where
  /-- `context[cursor]` of the `size` contexts of the call `serial`. `reply[cursor]` goes with it. -/
  | array (serial : Nat) (size cursor : UInt32)
  /-- The variable `context` of the call `serial`. -/
  | variable (serial : Nat)
deriving DecidableEq

/-- The call whose variable the context is in. -/
def ClientContext.serial : ClientContext → Nat
  | array serial _ _ | .variable serial => serial

/-- A context of an array is one of those that the array has. -/
def ClientContext.Inside : ClientContext → Prop
  | array _ size cursor => cursor < size
  | .variable _ => True

/-- A call of `execute_message` on `grpc_stub[target]`. -/
structure StubCall where
  target : String
  /-- The stub is not NULL. -/
  stub : Bool
  context : ClientContext
  data : MessageData
deriving DecidableEq

/-- `SynchronousGRPC`. The peers are in some order, and `grpcStub` are those that have a stub. -/
structure Broker where
  nodeId : String
  peers : List String
  nodup : peers.Nodup
  /-- The mutex is locked. -/
  peersMutex : Bool
  grpcStub : List String
  sent : List StubCall

/-- Why a call does not go on. -/
inductive Halt where
  /-- `Utils::error` threw this message. -/
  | raised (what : String)
  /-- The thread waits for a mutex that is locked. -/
  | blocked
deriving DecidableEq

/-- A piece of a call. What it has changed stays changed when it raises. -/
abbrev BrokerM := EStateM Halt Broker

namespace Broker

/-- `SynchronousGRPC::SynchronousGRPC`. -/
def new (nodeId : String) : Broker where
  nodeId := nodeId
  peers := []
  nodup := List.nodup_nil
  peersMutex := false
  grpcStub := []
  sent := []

/-- `peers_mutex.lock()`. -/
def lock : BrokerM Unit := fun b =>
  if b.peersMutex then .error .blocked b else .ok () { b with peersMutex := true }

/-- `peers_mutex.unlock()`. -/
def unlock : BrokerM Unit := modify fun b => { b with peersMutex := false }

/-- `Utils::error`. -/
def error (what : String) : BrokerM Unit := throw (.raised what)

/-- A call of `execute_message` on the stub that is there now. -/
def stubCall (grpcStub : List String) (target : String) (context : ClientContext)
    (data : MessageData) : StubCall :=
  { target := target, stub := target ∈ grpcStub, context := context, data := data }

/-- `grpc_stub[target]->execute_message(context, data, reply)`. -/
def executeMessage (target : String) (context : ClientContext) (data : MessageData) :
    BrokerM Unit :=
  modify fun b => { b with sent := b.sent ++ [stubCall b.grpcStub target context data] }

/-! ## `add_peer` -/

/-- `MessageBroker::add_peer`. -/
def insertPeer (peerId : String) : BrokerM Unit := do
  lock
  modify fun b => { b with peers := b.peers.insert peerId, nodup := b.nodup.insert }
  unlock

/-- `SynchronousGRPC::add_peer` after that. -/
def storeStub (peerId : String) : BrokerM Unit :=
  modify fun b => { b with grpcStub := peerId :: b.grpcStub }

/-- `SynchronousGRPC::add_peer`. -/
def addPeer (peerId : String) : BrokerM Unit := do
  insertPeer peerId
  storeStub peerId

/-! ## `broadcast` -/

/-- `num_peers`, an `unsigned int`. -/
def numPeers (b : Broker) : UInt32 := UInt32.ofNat b.peers.length

/-- The message of `broadcast`. -/
def broadcastData (b : Broker) (command : String) (args : List String) : MessageData where
  command := command
  args := args
  sender := b.nodeId
  isBroadcast := true
  visitedRecipients := [b.nodeId]

/-- The loop of `broadcast`. The cursor is an `unsigned int`. -/
def broadcastLoop (serial : Nat) (numPeers : UInt32) (data : MessageData) :
    UInt32 → List String → BrokerM Unit
  | _, [] => pure ()
  | cursor, peerId :: peers => do
    executeMessage peerId (.array serial numPeers cursor) data
    broadcastLoop serial numPeers data (cursor + 1) peers

/-- `broadcast` after it has read the number of peers. -/
def broadcastPeers (serial : Nat) (numPeers : UInt32) (command : String) (args : List String) :
    BrokerM Unit := do
  lock
  let b ← get
  broadcastLoop serial numPeers (b.broadcastData command args) 0 b.peers
  unlock

/-- `SynchronousGRPC::broadcast`. -/
def broadcast (serial : Nat) (command : String) (args : List String) : BrokerM Unit := do
  let b ← get
  if b.numPeers = 0 then pure ()
  else broadcastPeers serial b.numPeers command args

/-! ## `send` -/

/-- `send` until it has released the mutex. Where it raises it does not release it. -/
def checkRecipient (recipient : String) : BrokerM Unit := do
  lock
  let b ← get
  if recipient ∈ b.peers then pure () else error ("Unknown peer: " ++ recipient)
  unlock

/-- The message of `send`. -/
def sendData (b : Broker) (command : String) (args : List String) : MessageData where
  command := command
  args := args
  sender := b.nodeId
  isBroadcast := false
  visitedRecipients := []

/-- `send` after that. -/
def deliver (serial : Nat) (command : String) (args : List String) (recipient : String) :
    BrokerM Unit := do
  let b ← get
  executeMessage recipient (.variable serial) (b.sendData command args)

/-- `SynchronousGRPC::send`. -/
def send (serial : Nat) (command : String) (args : List String) (recipient : String) :
    BrokerM Unit := do
  checkRecipient recipient
  deliver serial command args recipient

/-! ## The inbox -/

/-- The loop that sends a broadcast on, with one context for all targets. -/
def forwardLoop (serial : Nat) (visited : List String) (data : MessageData) :
    List String → BrokerM Unit
  | [] => pure ()
  | target :: targets => do
    if target ∉ visited then executeMessage target (.variable serial) data
    forwardLoop serial visited data targets

/-- Sends a broadcast on that the node has not seen. -/
def forward (serial : Nat) (data : MessageData) : BrokerM Unit := do
  let visited := data.visitedRecipients
  lock
  let b ← get
  forwardLoop serial visited (data.addVisitedRecipients b.nodeId) b.peers
  unlock

variable {μ : Type} (messageFactory : String → List String → Option μ)

/-- `message_factory`. -/
def makeMessage (data : MessageData) : BrokerM Unit :=
  if (messageFactory data.command data.args).isNone then error "Invalid NULL Message" else pure ()

/-- The body of the loop of `SynchronousGRPC::inbox_thread_method` for one message. -/
def inbox (serial : Nat) (data : MessageData) : BrokerM Unit := do
  let b ← get
  if data.isBroadcast then
    if b.nodeId ∈ data.visitedRecipients then pure ()
    else do
      forward serial data
      makeMessage messageFactory data
  else makeMessage messageFactory data

end Broker

/-! ## What the pieces do -/

namespace Broker

variable {b : Broker} {peerId recipient : String} {serial : Nat} {n : UInt32}

theorem lock_locked (h : b.peersMutex = true) : lock b = .error .blocked b := by
  rw [lock, h]
  rfl

/-- A piece that starts with the lock waits for it. -/
theorem bind_lock_locked {α : Type} {x : Unit → BrokerM α} (h : b.peersMutex = true) :
    (lock >>= x) b = .error .blocked b := by
  change EStateM.bind lock x b = _
  rw [EStateM.bind, lock_locked h]

theorem bind_lock_free {α : Type} {x : Unit → BrokerM α} (h : b.peersMutex = false) :
    (lock >>= x) b = x () { b with peersMutex := true } := by
  change EStateM.bind lock x b = _
  rw [EStateM.bind, lock, h]
  rfl

/-- The broker with a further peer. -/
def withPeer (b : Broker) (peerId : String) : Broker :=
  { b with peers := b.peers.insert peerId, nodup := b.nodup.insert }

/-- The broker after further calls of `execute_message`. -/
def withSent (b : Broker) (calls : List StubCall) : Broker := { b with sent := b.sent ++ calls }

theorem withSent_withSent (b : Broker) (calls calls' : List StubCall) :
    (b.withSent calls).withSent calls' = b.withSent (calls ++ calls') := by
  simp [withSent]

/-- The calls of `execute_message` of a broadcast. -/
def broadcastCalls (grpcStub : List String) (serial : Nat) (n : UInt32) (data : MessageData) :
    UInt32 → List String → List StubCall
  | _, [] => []
  | cursor, peerId :: peers =>
    stubCall grpcStub peerId (.array serial n cursor) data ::
      broadcastCalls grpcStub serial n data (cursor + 1) peers

/-- The peers that a broadcast is sent on to. -/
def targets (b : Broker) (data : MessageData) : List String :=
  b.peers.filter fun target => target ∉ data.visitedRecipients

/-- The calls of `execute_message` that send a broadcast on. -/
def forwardCalls (b : Broker) (serial : Nat) (data : MessageData) : List StubCall :=
  (b.targets data).map fun target =>
    stubCall b.grpcStub target (.variable serial) (data.addVisitedRecipients b.nodeId)

theorem insertPeer_free (h : b.peersMutex = false) :
    insertPeer peerId b = .ok () (b.withPeer peerId) := by
  obtain ⟨nodeId, peers, nodup, mutex, stubs, sent⟩ := b
  obtain rfl : mutex = false := h
  rfl

theorem broadcastLoop_eq (serial : Nat) (n : UInt32) (data : MessageData) (peers : List String) :
    ∀ (cursor : UInt32) (b : Broker), broadcastLoop serial n data cursor peers b =
      .ok () (b.withSent (broadcastCalls b.grpcStub serial n data cursor peers)) := by
  induction peers with
  | nil =>
    intro cursor b
    rw [broadcastCalls, withSent, List.append_nil]
    rfl
  | cons peerId peers ih =>
    intro cursor b
    change broadcastLoop serial n data (cursor + 1) peers (b.withSent _) = _
    rw [ih, withSent_withSent]
    rfl

theorem forwardLoop_eq (serial : Nat) (visited : List String) (data : MessageData)
    (peers : List String) : ∀ b : Broker, forwardLoop serial visited data peers b =
      .ok () (b.withSent ((peers.filter fun target => target ∉ visited).map fun target =>
        stubCall b.grpcStub target (.variable serial) data)) := by
  induction peers with
  | nil =>
    intro b
    rw [List.filter_nil, List.map_nil, withSent, List.append_nil]
    rfl
  | cons target peers ih =>
    intro b
    by_cases ht : target ∉ visited
    · rw [forwardLoop, if_pos ht, List.filter_cons_of_pos (by simpa using ht), List.map_cons]
      change forwardLoop serial visited data peers (b.withSent _) = _
      rw [ih, withSent_withSent]
      rfl
    · rw [forwardLoop, if_neg ht, List.filter_cons_of_neg (by simpa using ht)]
      exact ih b

theorem broadcastPeers_free (h : b.peersMutex = false) (command : String) (args : List String) :
    broadcastPeers serial n command args b = .ok () (b.withSent
      (broadcastCalls b.grpcStub serial n (b.broadcastData command args) 0 b.peers)) := by
  obtain ⟨nodeId, peers, nodup, mutex, stubs, sent⟩ := b
  obtain rfl : mutex = false := h
  rw [broadcastPeers, bind_lock_free rfl]
  change EStateM.bind (broadcastLoop serial n _ 0 peers) _ _ = _
  rw [EStateM.bind, broadcastLoop_eq]
  rfl

theorem checkRecipient_known (h : b.peersMutex = false) (hr : recipient ∈ b.peers) :
    checkRecipient recipient b = .ok () b := by
  obtain ⟨nodeId, peers, nodup, mutex, stubs, sent⟩ := b
  obtain rfl : mutex = false := h
  rw [checkRecipient, bind_lock_free rfl]
  change (if recipient ∈ peers then unlock else error _ >>= fun _ => unlock) _ = _
  rw [if_pos hr]
  rfl

/-- **A check that fails keeps the mutex.** -/
theorem checkRecipient_unknown (h : b.peersMutex = false) (hr : recipient ∉ b.peers) :
    checkRecipient recipient b =
      .error (.raised ("Unknown peer: " ++ recipient)) { b with peersMutex := true } := by
  rw [checkRecipient, bind_lock_free h]
  change (if recipient ∈ b.peers then unlock else error _ >>= fun _ => unlock) _ = _
  rw [if_neg hr]
  rfl

theorem forward_free (h : b.peersMutex = false) (data : MessageData) :
    forward serial data b = .ok () (b.withSent (b.forwardCalls serial data)) := by
  obtain ⟨nodeId, peers, nodup, mutex, stubs, sent⟩ := b
  obtain rfl : mutex = false := h
  rw [forward, bind_lock_free rfl]
  change EStateM.bind (forwardLoop serial _ _ peers) _ _ = _
  rw [EStateM.bind, forwardLoop_eq]
  rfl

/-- What `add_peer` does. -/
theorem addPeer_eq (b : Broker) (peerId : String) : addPeer peerId b =
    if b.peersMutex then .error .blocked b
    else .ok () { b.withPeer peerId with grpcStub := peerId :: b.grpcStub } := by
  change EStateM.bind (insertPeer peerId) _ b = _
  cases h : b.peersMutex with
  | true =>
    rw [EStateM.bind, insertPeer, bind_lock_locked h]
    rfl
  | false =>
    rw [EStateM.bind, insertPeer_free h]
    rfl

/-- What `broadcast` does. -/
theorem broadcast_eq (b : Broker) (serial : Nat) (command : String) (args : List String) :
    broadcast serial command args b =
      if b.numPeers = 0 then .ok () b
      else if b.peersMutex then .error .blocked b
      else .ok () (b.withSent (broadcastCalls b.grpcStub serial b.numPeers
        (b.broadcastData command args) 0 b.peers)) := by
  change (if b.numPeers = 0 then pure () else broadcastPeers serial b.numPeers command args) b = _
  by_cases hn : b.numPeers = 0
  · rw [if_pos hn, if_pos hn]
    rfl
  · rw [if_neg hn, if_neg hn]
    cases h : b.peersMutex with
    | true => exact bind_lock_locked h
    | false => exact broadcastPeers_free h command args

theorem deliver_eq (b : Broker) (serial : Nat) (command : String) (args : List String)
    (recipient : String) : deliver serial command args recipient b = .ok () (b.withSent
      [stubCall b.grpcStub recipient (.variable serial) (b.sendData command args)]) := rfl

/-- What `send` does. -/
theorem send_eq (b : Broker) (serial : Nat) (command : String) (args : List String)
    (recipient : String) : send serial command args recipient b =
      if b.peersMutex then .error .blocked b
      else if recipient ∈ b.peers then .ok () (b.withSent
        [stubCall b.grpcStub recipient (.variable serial) (b.sendData command args)])
      else .error (.raised ("Unknown peer: " ++ recipient)) { b with peersMutex := true } := by
  change EStateM.bind (checkRecipient recipient) _ b = _
  cases h : b.peersMutex with
  | true =>
    rw [EStateM.bind, checkRecipient, bind_lock_locked h]
    rfl
  | false =>
    by_cases hr : recipient ∈ b.peers
    · rw [EStateM.bind, checkRecipient_known h hr, if_pos hr]
      rfl
    · rw [EStateM.bind, checkRecipient_unknown h hr, if_neg hr]
      rfl

section inbox

variable {μ : Type} (messageFactory : String → List String → Option μ)

theorem makeMessage_eq (b : Broker) (data : MessageData) : makeMessage messageFactory data b =
    if (messageFactory data.command data.args).isNone then
      .error (.raised "Invalid NULL Message") b
    else .ok () b := by
  rw [makeMessage]
  split
  · rfl
  · rfl

/-- The node sends the message on. -/
def Forwards (b : Broker) (data : MessageData) : Prop :=
  data.isBroadcast = true ∧ b.nodeId ∉ data.visitedRecipients

instance (b : Broker) (data : MessageData) : Decidable (b.Forwards data) :=
  inferInstanceAs (Decidable (_ ∧ _))

/-- What the body of the inbox loop does. -/
theorem inbox_eq (b : Broker) (serial : Nat) (data : MessageData) :
    inbox messageFactory serial data b =
      if b.Forwards data then
        if b.peersMutex then .error .blocked b
        else makeMessage messageFactory data (b.withSent (b.forwardCalls serial data))
      else if data.isBroadcast then .ok () b
      else makeMessage messageFactory data b := by
  change (if data.isBroadcast = true then
      if b.nodeId ∈ data.visitedRecipients then pure ()
      else forward serial data >>= fun _ => makeMessage messageFactory data
    else makeMessage messageFactory data) b = _
  by_cases hb : data.isBroadcast = true
  · by_cases hv : b.nodeId ∈ data.visitedRecipients
    · have hf : ¬ b.Forwards data := fun hf => hf.2 hv
      rw [if_pos hb, if_pos hv, if_neg hf, if_pos hb]
      rfl
    · have hf : b.Forwards data := ⟨hb, hv⟩
      rw [if_pos hb, if_neg hv, if_pos hf]
      change EStateM.bind (forward serial data) _ b = _
      cases h : b.peersMutex with
      | true =>
        rw [EStateM.bind, forward, bind_lock_locked h]
        rfl
      | false =>
        rw [EStateM.bind, forward_free h]
        rfl
  · have hf : ¬ b.Forwards data := fun hf => hb hf.1
    rw [if_neg hb, if_neg hf, if_neg hb]

end inbox

/-! ## What is sent -/

/-- The message and its recipient. -/
def delivery (call : StubCall) : SynchronousGRPC.Delivery :=
  { recipient := call.target, data := call.data }

theorem broadcastCalls_target (grpcStub : List String) (data : MessageData) (peers : List String) :
    ∀ cursor, (broadcastCalls grpcStub serial n data cursor peers).map StubCall.target = peers := by
  induction peers with
  | nil => intro cursor; rfl
  | cons peerId peers ih =>
    intro cursor
    rw [broadcastCalls, List.map_cons, ih]
    rfl

/-- The contexts of a broadcast, by the cursor. -/
theorem broadcastCalls_context (grpcStub : List String) (data : MessageData)
    (peers : List String) : ∀ cursor,
    (broadcastCalls grpcStub serial n data cursor peers).map StubCall.context =
      (List.range peers.length).map fun k => .array serial n (cursor + UInt32.ofNat k) := by
  induction peers with
  | nil => intro cursor; rfl
  | cons peerId peers ih =>
    intro cursor
    have hnext : ∀ k, cursor + 1 + UInt32.ofNat k = cursor + UInt32.ofNat (k + 1) := by
      intro k
      rw [UInt32.ofNat_add, UInt32.add_assoc, UInt32.add_comm 1]
      rfl
    rw [broadcastCalls, List.map_cons, ih, List.length_cons, List.range_succ_eq_map,
      List.map_cons, List.map_map]
    simp [stubCall, Function.comp_def, hnext]

theorem broadcastCalls_mem {grpcStub : List String} {data : MessageData} {peers : List String} :
    ∀ {cursor}, ∀ e ∈ broadcastCalls grpcStub serial n data cursor peers,
      e.stub = decide (e.target ∈ grpcStub) ∧ e.context.serial = serial := by
  induction peers with
  | nil => exact fun _ => nofun
  | cons peerId peers ih =>
    intro cursor e he
    rcases List.mem_cons.mp he with rfl | he
    · exact ⟨rfl, rfl⟩
    · exact ih e he

/-- A broadcast goes to all peers. -/
theorem broadcastCalls_delivery (b : Broker) (command : String) (args : List String) :
    (broadcastCalls b.grpcStub serial n (b.broadcastData command args) 0 b.peers).map delivery =
      SynchronousGRPC.broadcast b.nodeId b.peers command args := by
  suffices hall : ∀ (peers : List String) (cursor : UInt32),
      (broadcastCalls b.grpcStub serial n (b.broadcastData command args) cursor peers).map delivery
        = SynchronousGRPC.broadcast b.nodeId peers command args from hall b.peers 0
  intro peers
  induction peers with
  | nil => intro cursor; rfl
  | cons peerId peers ih =>
    intro cursor
    rw [broadcastCalls, List.map_cons, ih]
    rfl

/-- A broadcast that the node has not seen goes to its peers, and is executed. -/
theorem inbox_delivery {μ : Type} {messageFactory : String → List String → Option μ} {message : μ}
    {data : MessageData} (hf : b.Forwards data)
    (hm : messageFactory data.command data.args = some message) :
    SynchronousGRPC.inbox b.nodeId b.peers messageFactory data =
      some ((b.forwardCalls serial data).map delivery,
        [{ node := b.nodeId
           message := message
           data := data.addVisitedRecipients b.nodeId }]) := by
  rw [SynchronousGRPC.inbox_new hf.1 hf.2 hm, forwardCalls, List.map_map]
  rfl

end Broker

/-! ## Calls -/

/-- What a call does. -/
inductive Operation where
  | addPeer (peerId : String)
  | broadcast (command : String) (args : List String)
  | send (command : String) (args : List String) (recipient : String)
  | inbox (data : MessageData)
deriving DecidableEq

/-- Somebody catches what the operation raises. -/
def Operation.Caught : Operation → Prop
  | inbox _ => False
  | _ => True

instance : DecidablePred Operation.Caught
  | .inbox _ => inferInstanceAs (Decidable False)
  | .addPeer _ | .broadcast _ _ | .send _ _ _ => inferInstanceAs (Decidable True)

/-- A call. The serial number says whose local variables are meant. -/
structure BrokerCall where
  serial : Nat
  operation : Operation
deriving DecidableEq

namespace BrokerCall

variable {μ : Type} (messageFactory : String → List String → Option μ)

/-- A whole call. -/
def run (call : BrokerCall) : BrokerM Unit :=
  match call.operation with
  | .addPeer peerId => Broker.addPeer peerId
  | .broadcast command args => Broker.broadcast call.serial command args
  | .send command args recipient => Broker.send call.serial command args recipient
  | .inbox data => Broker.inbox messageFactory call.serial data

/--
A whole call as a step of a run. Who made the call catches what it raises. An inbox thread catches
nothing, and the process ends.

There is no step that ends the process, and none where a call waits for a mutex that nobody
releases.
-/
def step (b : Broker) (call : BrokerCall) : Option Broker :=
  match call.run messageFactory b with
  | .ok _ b => some b
  | .error (.raised _) b => if call.operation.Caught then some b else none
  | .error .blocked _ => none

end BrokerCall

/-- The factory of a host node that makes one message of everything. -/
def oneMessage (_ : String) (_ : List String) : Option Unit := some ()

end AttentionBroker
