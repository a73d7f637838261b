import AttentionBroker.Infra.Parties
import AttentionBroker.Node.Broadcast
import AttentionBroker.Server.RequestQueue
import AttentionBroker.Trie.Threads

/-!
# The threads behind a network of nodes

`atom_space_node/MessageBroker.{h,cc}`, for the threads of all nodes. Each node has its incoming
queue, its `peers_mutex` and some threads that run `inbox_thread_method`, and other threads call
`broadcast`. A call of `execute_message` enqueues its message at the recipient before it returns.

`traffic` is what the queues and the threads hold of a broadcast. It is a state of the network in
which a node processes a message in one step.
-/

namespace AttentionBroker

open Infra SynchronousGRPC

/-- A message with the number of its broadcast, which no step reads. -/
structure Parcel where
  data : MessageData
  serial : Nat
deriving DecidableEq

/-- What the threads of all nodes share. `executed` is a record and no step reads it. -/
structure NodeMemory (μ : Type) where
  incomingMessages : String → RequestQueue Parcel
  peersMutex : String → Bool
  executed : List (Nat × Execution μ)

/-- How far a thread is. -/
inductive NodeStage where
  /-- A call of `broadcast`. -/
  | broadcasting (serial : Nat) (command : String) (args : List String)
  /-- At the top of the loop of `inbox_thread_method`. -/
  | polling
  | received (parcel : Parcel)
  | locking (parcel : Parcel) (visited : List String)
  /-- In the loop over the peers, with the peers to come. -/
  | sending (parcel : Parcel) (visited targets : List String)
  | acting (parcel : Parcel)
  | returned
deriving DecidableEq

/-- A thread of a node. It runs `inbox_thread_method`, or it calls `broadcast`. -/
structure NodeThread where
  node : String
  inbox : Bool
  stage : NodeStage
deriving DecidableEq

variable {μ : Type}

namespace NodeMemory

/-- Replaces the queue of a node. -/
def setQueue (s : NodeMemory μ) (v : String) (q : RequestQueue Parcel) : NodeMemory μ :=
  { s with incomingMessages := Function.update s.incomingMessages v q }

/-- Locks or unlocks the `peers_mutex` of a node. -/
def setMutex (s : NodeMemory μ) (v : String) (locked : Bool) : NodeMemory μ :=
  { s with peersMutex := Function.update s.peersMutex v locked }

@[simp] theorem setQueue_self (s : NodeMemory μ) (v : String) (q : RequestQueue Parcel) :
    (s.setQueue v q).incomingMessages v = q := Function.update_self _ _ _

theorem setQueue_ne (s : NodeMemory μ) {v w : String} (q : RequestQueue Parcel) (h : w ≠ v) :
    (s.setQueue v q).incomingMessages w = s.incomingMessages w := Function.update_of_ne h _ _

@[simp] theorem setMutex_self (s : NodeMemory μ) (v : String) (locked : Bool) :
    (s.setMutex v locked).peersMutex v = locked := Function.update_self _ _ _

theorem setMutex_ne (s : NodeMemory μ) {v w : String} (locked : Bool) (h : w ≠ v) :
    (s.setMutex v locked).peersMutex w = s.peersMutex w := Function.update_of_ne h _ _

/-- `execute_message` at the target. -/
def executeMessage (s : NodeMemory μ) (target : String) (parcel : Parcel) :
    Except Obstacle (NodeMemory μ) := do
  let q ← ((s.incomingMessages target).enqueue parcel).mapError .fault
  .ok (s.setQueue target q)

end NodeMemory

namespace NodeNetwork

variable (net : NodeNetwork μ)

/-- The message of a broadcast. -/
def broadcastParcel (nodeId : String) (serial : Nat) (command : String) (args : List String) :
    Parcel where
  data :=
    { command := command
      args := args
      sender := nodeId
      isBroadcast := true
      visitedRecipients := [nodeId] }
  serial := serial

/--
The next step of a thread.

A thread that finds its queue empty only sleeps. So it waits as one that waits for a mutex.
-/
def advance (t : NodeThread) (s : NodeMemory μ) : Except Obstacle (NodeMemory μ × NodeThread) :=
  match t.stage with
  | .broadcasting serial command args =>
    if UInt32.ofNat (net.peers t.node).length = 0 then .ok (s, { t with stage := .returned })
    else .ok (s, { t with stage := .locking (broadcastParcel t.node serial command args) [] })
  | .polling => do
    let (request, q) ← ((s.incomingMessages t.node).dequeue).mapError .fault
    match request with
    | some parcel => .ok (s.setQueue t.node q, { t with stage := .received parcel })
    | none => .error .waits
  | .received parcel =>
    if parcel.data.isBroadcast then
      let visited := parcel.data.visitedRecipients
      if t.node ∈ visited then .ok (s, { t with stage := .polling })
      else
        let parcel := { parcel with data := parcel.data.addVisitedRecipients t.node }
        .ok (s, { t with stage := .locking parcel visited })
    else .ok (s, { t with stage := .acting parcel })
  | .locking parcel visited =>
    if s.peersMutex t.node then .error .waits
    else .ok (s.setMutex t.node true,
      { t with stage := .sending parcel visited (net.peers t.node) })
  | .sending parcel visited (target :: targets) =>
    if target ∉ visited then do
      let s ← s.executeMessage target parcel
      .ok (s, { t with stage := .sending parcel visited targets })
    else .ok (s, { t with stage := .sending parcel visited targets })
  | .sending parcel _ [] =>
    .ok (s.setMutex t.node false,
      { t with stage := if t.inbox then .acting parcel else .returned })
  | .acting parcel =>
    match net.messageFactory t.node parcel.data.command parcel.data.args with
    | none => .error (.fault (.runtimeError "Invalid NULL Message"))
    | some message =>
      .ok ({ s with executed := s.executed ++
              [(parcel.serial, { node := t.node, message := message, data := parcel.data })] },
        { t with stage := .polling })
  | .returned => .error .returned

end NodeNetwork

/-- The threads of all nodes. -/
abbrev NodeThreads (μ : Type) := Parties (NodeMemory μ) NodeThread

/-- A call of `broadcast`. -/
structure BroadcastCall where
  origin : String
  command : String
  args : List String
deriving DecidableEq

namespace NodeThreads

/-- Threads that call `broadcast`, and one inbox thread for each entry of `inboxes`. -/
def start (broadcasts : List BroadcastCall) (inboxes : List String) : NodeThreads μ where
  shared :=
    { incomingMessages := fun _ => .new 1000
      peersMutex := fun _ => false
      executed := [] }
  locals :=
    broadcasts.mapIdx (fun serial b =>
      { node := b.origin
        inbox := false
        stage := .broadcasting serial b.command b.args }) ++
    inboxes.map fun v => { node := v, inbox := true, stage := .polling }

/-- No call of `broadcast` goes on and no message is left. -/
def Quiet (net : NodeNetwork μ) (s : NodeThreads μ) : Prop :=
  (∀ t ∈ s.locals, t.stage = .polling ∨ t.stage = .returned) ∧
    ∀ v ∈ net.nodes, (s.shared.incomingMessages v).toList = []

instance (net : NodeNetwork μ) (s : NodeThreads μ) : Decidable (Quiet net s) :=
  inferInstanceAs (Decidable ((∀ t ∈ s.locals, _ ∨ _) ∧ ∀ v ∈ net.nodes, _ = _))

/-- How many times a node has executed a broadcast. -/
def executions (s : NodeThreads μ) (serial : Nat) (v : String) : Nat :=
  s.shared.executed.countP fun e => e.1 = serial ∧ e.2.node = v

end NodeThreads

end AttentionBroker
