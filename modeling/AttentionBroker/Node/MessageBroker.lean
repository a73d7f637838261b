import Mathlib.Data.Finset.Card
import AttentionBroker.Infra.Transition

/-!
# `SynchronousGRPC`

`atom_space_node/MessageBroker.{h,cc}`. A broadcast goes to all peers of a node. A node that
gets it sends it on to its own peers and executes it, unless the list of visited nodes that the
message carries names the node.

Every call of `execute_message` puts its message into the incoming queue of the recipient
once. `Traffic` is what all these queues and connections hold together, in any order.
-/

namespace AttentionBroker

open Infra

/-- `dasproto::MessageData`. -/
structure MessageData where
  command : String
  args : List String
  sender : String
  isBroadcast : Bool
  visitedRecipients : List String
deriving DecidableEq

/-- `add_visited_recipients`. -/
def MessageData.addVisitedRecipients (data : MessageData) (nodeId : String) : MessageData :=
  { data with visitedRecipients := data.visitedRecipients ++ [nodeId] }

namespace SynchronousGRPC

/-- A message that was sent to a node by `execute_message`. -/
structure Delivery where
  recipient : String
  data : MessageData
deriving DecidableEq

/-- A call of `act` at a node, on the `Message` that was made from the data. -/
structure Execution (μ : Type) where
  node : String
  message : μ
  data : MessageData

variable {μ : Type}

/-- `SynchronousGRPC::broadcast`. Without peers it sends nothing. -/
def broadcast (nodeId : String) (peers : List String) (command : String) (args : List String) :
    List Delivery :=
  peers.map fun peerId =>
    { recipient := peerId
      data :=
        { command := command
          args := args
          sender := nodeId
          isBroadcast := true
          visitedRecipients := [nodeId] } }

/-- `message_factory` and `act`. A NULL `Message` raises. -/
def execute (nodeId : String) (messageFactory : String → List String → Option μ)
    (data : MessageData) : Option (List (Execution μ)) :=
  (messageFactory data.command data.args).map fun message =>
    [{ node := nodeId, message := message, data := data }]

/--
The body of the loop of `SynchronousGRPC::inbox_thread_method` for one message.

The result is what it sends and what it executes. The node is added to the visited ones of the
message before that is sent on, but the peers are tested against the visited ones from before.
-/
def inbox (nodeId : String) (peers : List String)
    (messageFactory : String → List String → Option μ) (data : MessageData) :
    Option (List Delivery × List (Execution μ)) :=
  if data.isBroadcast then
    let visited := data.visitedRecipients
    if nodeId ∈ visited then some ([], [])
    else do
      let data := data.addVisitedRecipients nodeId
      let targets := peers.filter fun target => target ∉ visited
      let executed ← execute nodeId messageFactory data
      return (targets.map fun target => { recipient := target, data := data }, executed)
  else do
    let executed ← execute nodeId messageFactory data
    return ([], executed)

variable {nodeId : String} {peers : List String} {data : MessageData} {message : μ}
  {messageFactory : String → List String → Option μ}

/-- A node drops a broadcast that it has seen. -/
theorem inbox_visited (hb : data.isBroadcast = true) (hv : nodeId ∈ data.visitedRecipients) :
    inbox nodeId peers messageFactory data = some ([], []) := by
  simp [inbox, hb, hv]

/-- A node sends a new broadcast to its peers and executes it. -/
theorem inbox_new (hb : data.isBroadcast = true) (hv : nodeId ∉ data.visitedRecipients)
    (hm : messageFactory data.command data.args = some message) :
    inbox nodeId peers messageFactory data = some
      ((peers.filter fun target => target ∉ data.visitedRecipients).map fun target =>
          { recipient := target, data := data.addVisitedRecipients nodeId },
        [{ node := nodeId, message := message, data := data.addVisitedRecipients nodeId }]) := by
  simp [inbox, execute, hb, hv, MessageData.addVisitedRecipients, hm]

end SynchronousGRPC

/-! ## Networks -/

/--
Nodes with fixed peers. The peers are in the order in which their set is iterated.

`messageFactory` is that of the host nodes, which a distributed application defines.
-/
structure NodeNetwork (μ : Type) where
  nodes : Finset String
  peers : String → List String
  nodup : ∀ v, (peers v).Nodup
  closed : ∀ v ∈ nodes, ∀ w ∈ peers v, w ∈ nodes
  messageFactory : String → String → List String → Option μ

namespace NodeNetwork

open SynchronousGRPC

variable {μ : Type}

/-- `w` is a peer of `v`. -/
def Peer (net : NodeNetwork μ) (v w : String) : Prop := w ∈ net.peers v

/-- The messages in flight and what has been executed. No step reads the latter. -/
structure Traffic (μ : Type) where
  inFlight : List Delivery
  executed : List (Execution μ)

/-- How many times a node has executed a message. -/
def Traffic.executions (s : Traffic μ) (v : String) : Nat := s.executed.countP (·.node = v)

/-- The node that got message `i` processes it. There is no step where that raises. -/
def step (net : NodeNetwork μ) (s : Traffic μ) (i : Nat) : Option (Traffic μ) := do
  let d ← s.inFlight[i]?
  let (sent, executed) ←
    inbox d.recipient (net.peers d.recipient) (net.messageFactory d.recipient) d.data
  return { inFlight := s.inFlight.eraseIdx i ++ sent, executed := s.executed ++ executed }

/-- Right after a broadcast. -/
def start (net : NodeNetwork μ) (origin command : String) (args : List String) : Traffic μ where
  inFlight := broadcast origin (net.peers origin) command args
  executed := []

end NodeNetwork

end AttentionBroker
