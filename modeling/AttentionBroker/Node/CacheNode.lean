import Mathlib.Data.Finset.Insert
import Mathlib.Logic.Function.Basic
import AttentionBroker.Node.MessageBroker

/-!
# The cache network

`cache_node/CacheNode.{h,cc}`, and what it uses of `atom_space_node/AtomSpaceNode.{h,cc}`,
`LeadershipBroker.{h,cc}` and `Message.{h,cc}`. A single server gets to know the clients by the
broadcasts of `join_network`. A client knows the server from the start and nobody else ever.

`step` is what happens next in a network of these nodes: a node joins, a node broadcasts, or an
inbox thread takes a message. Broadcasts are numbered, which no step reads.
-/

namespace AttentionBroker

open Infra SynchronousGRPC

/-! ## Messages -/

namespace AtomSpaceNode

/-- A `Message`: `NodeJoinedNetwork`, or one of a class that an application adds. -/
inductive Message (μ : Type) where
  | nodeJoinedNetwork (joiningNode : String)
  | application (message : μ)

/-- `known_commands.NODE_JOINED_NETWORK`. -/
def nodeJoinedNetworkCommand : String := "node_joined_network"

/-- `AtomSpaceNode::message_factory`. Without arguments `args[0]` is no string, and this no message. -/
def messageFactory {μ : Type} (command : String) (args : List String) : Option (Message μ) :=
  if command = nodeJoinedNetworkCommand then args.head?.map .nodeJoinedNetwork else none

end AtomSpaceNode

/-- `SingleMasterServer::start_leader_election`, with the leader that is set. -/
def SingleMasterServer.startLeaderElection (myVote : String) : String := myVote

/-- `LeadershipBroker::has_leader`. -/
def LeadershipBroker.hasLeader (networkLeaderId : String) : Prop := networkLeaderId ≠ ""

instance (id : String) : Decidable (LeadershipBroker.hasLeader id) :=
  inferInstanceAs (Decidable (id ≠ ""))

/-! ## Nodes -/

/-- `CacheNodeServer` and `CacheNodeClient`. -/
inductive CacheNode where
  | server (nodeId : String)
  | client (nodeId serverId : String)

namespace CacheNode

open AtomSpaceNode

variable {μ : Type}

/-- The peers after the constructor. -/
def initialPeers : CacheNode → List String
  | server _ => []
  | client _ serverId => [serverId]

/-- `cast_leadership_vote`. -/
def castLeadershipVote : CacheNode → String
  | server nodeId => nodeId
  | client _ serverId => serverId

/-- `node_joined_network`, which returns the new peers. -/
def nodeJoinedNetwork (peers : List String) (nodeId : String) : CacheNode → List String
  | server _ => peers.insert nodeId
  | client _ _ => peers

/-- `Message::act`, which returns the new peers. Only `NodeJoinedNetwork` changes them. -/
def act (node : CacheNode) (peers : List String) : Message μ → List String
  | .nodeJoinedNetwork joiningNode => node.nodeJoinedNetwork peers joiningNode
  | .application _ => peers

/-- `CacheNode::message_factory`. The one of an application calls it and then its own. -/
def messageFactory (application : String → List String → Option μ) (command : String)
    (args : List String) : Option (Message μ) :=
  match AtomSpaceNode.messageFactory command args with
  | some message => some message
  | none => (application command args).map .application

end CacheNode

/-! ## The network -/

/-- A server and its clients, with the commands that the application adds at each node. -/
structure CacheNetwork (μ : Type) where
  server : String
  clients : Finset String
  server_notMem : server ∉ clients
  application : String → String → List String → Option μ

/-- A call of `broadcast`. -/
structure Broadcast where
  origin : String
  command : String
  args : List String
deriving DecidableEq

namespace CacheNetwork

open AtomSpaceNode

variable {μ : Type}

/-- The node with this id. -/
def node (net : CacheNetwork μ) (v : String) : CacheNode :=
  if v = net.server then .server v else .client v net.server

/--
The nodes that have joined, the peers of each, the messages in flight and what has been executed,
with the numbers of their broadcasts, and these broadcasts.

The peers are in some order, as the messages in flight are.
-/
structure State (μ : Type) where
  joined : Finset String
  peers : String → List String
  inFlight : List (Nat × Delivery)
  executed : List (Nat × Execution (Message μ))
  broadcasts : List Broadcast

/-- All nodes are constructed and none has joined. -/
def start (net : CacheNetwork μ) : State μ where
  joined := ∅
  peers v := (net.node v).initialPeers
  inFlight := []
  executed := []
  broadcasts := []

/-- `AtomSpaceNode::broadcast`. -/
def State.broadcast (s : State μ) (v command : String) (args : List String) : State μ :=
  { s with
    inFlight := s.inFlight ++
      (SynchronousGRPC.broadcast v (s.peers v) command args).map fun d => (s.broadcasts.length, d)
    broadcasts := s.broadcasts ++ [{ origin := v, command := command, args := args }] }

/-- `AtomSpaceNode::join_network`. It waits for a leader, and with an empty vote there is none. -/
def join (net : CacheNetwork μ) (s : State μ) (v : String) : Option (State μ) :=
  let leaderId := SingleMasterServer.startLeaderElection (net.node v).castLeadershipVote
  if LeadershipBroker.hasLeader leaderId then
    let s := { s with joined := insert v s.joined }
    some (s.broadcast v nodeJoinedNetworkCommand [v])
  else none

/--
An inbox thread takes message `i`, sends it on to the peers of that moment and then acts.

The threads of a node run from `join_network` on. There is no step where the message is NULL.
-/
def receive (net : CacheNetwork μ) (s : State μ) (i : Nat) : Option (State μ) := do
  let (number, d) ← s.inFlight[i]?
  let v := d.recipient
  if v ∈ s.joined then
    let (sent, executed) ←
      inbox v (s.peers v) (CacheNode.messageFactory (net.application v)) d.data
    let peers := executed.foldl (fun peers e => (net.node v).act peers e.message) (s.peers v)
    return { s with
      peers := Function.update s.peers v peers
      inFlight := s.inFlight.eraseIdx i ++ sent.map fun d => (number, d)
      executed := s.executed ++ executed.map fun e => (number, e) }
  else none

/-- What happens next. -/
inductive Action where
  | join (v : String)
  | broadcast (v command : String) (args : List String)
  | receive (i : Nat)

def step (net : CacheNetwork μ) (s : State μ) : Action → Option (State μ)
  | .join v => net.join s v
  | .broadcast v command args => some (s.broadcast v command args)
  | .receive i => net.receive s i

/-- All nodes make a message from the command. -/
def Recognised (net : CacheNetwork μ) (command : String) (args : List String) : Prop :=
  ∀ v ∈ insert net.server net.clients,
    (CacheNode.messageFactory (net.application v) command args).isSome

/--
A node joins once, and a client after the server. What else is broadcast is broadcast by a node
that has joined, and is a command that all nodes know.
-/
def Permitted (net : CacheNetwork μ) (s : State μ) : Action → Prop
  | .join v => v ∉ s.joined ∧ (v = net.server ∨ v ∈ net.clients ∧ net.server ∈ s.joined)
  | .broadcast v command args => v ∈ s.joined ∧
      command ≠ nodeJoinedNetworkCommand ∧ net.Recognised command args
  | .receive _ => True

instance (net : CacheNetwork μ) (command : String) (args : List String) :
    Decidable (net.Recognised command args) :=
  inferInstanceAs (Decidable (∀ v ∈ insert net.server net.clients, _))

instance (net : CacheNetwork μ) (s : State μ) : ∀ a, Decidable (net.Permitted s a)
  | .join _ => inferInstanceAs (Decidable (_ ∧ _))
  | .broadcast _ _ _ => inferInstanceAs (Decidable (_ ∧ _))
  | .receive _ => isTrue trivial

/-- How many times a node has executed a broadcast. -/
def State.executions (s : State μ) (number : Nat) (v : String) : Nat :=
  s.executed.countP fun e => e.1 = number ∧ e.2.node = v

end CacheNetwork

end AttentionBroker
