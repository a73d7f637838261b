import Mathlib.Data.List.AList
import AttentionBroker.Hebbian.Requests
import AttentionBroker.Server.WorkerThreads

/-!
# `AttentionBrokerServer`

`attention_broker_server/AttentionBrokerServer.{h,cc}`. A call of `stimulate` or `correlate`
selects the network of its context, writes the pointer into the request, enqueues the request
and answers with a status. The request is processed later, on the network the pointer leads to.

`rpc_api_enabled` is read for the status only, after the request has been enqueued.
-/

namespace AttentionBroker

open Infra

/-! ## Requests -/

namespace Request

/-- The type of a request, which is also the queue it goes to. -/
def type : Request → RequestType
  | correlation _ => .correlation
  | stimulus _ => .stimulus

/-- `handle_list_size()` and `handle_count_size()`. -/
def size : Request → Nat
  | correlation handleList => handleList.length
  | stimulus handleCount => handleCount.handleCount.length

end Request

/-- `dasproto::HandleCount` or `dasproto::HandleList` with the fields that the server uses. -/
structure Message where
  request : Request
  context : String
  hebbianNetwork : Option Nat

/-- `grpc::Status`. -/
inductive Status where
  | ok
  | cancelled
deriving DecidableEq

/-- `unordered_map<string, HebbianNetwork *>`. A NULL pointer is `none`. -/
abbrev NetworkMap := AList fun _ : String => Option Nat

/-- `map[key]`, which adds a NULL pointer for a key that is not there. -/
def NetworkMap.index (map : NetworkMap) (key : String) : Option Nat × NetworkMap :=
  match map.lookup key with
  | some network => (network, map)
  | none => (none, map.insert key none)

/-- The server, with the networks its map points to. -/
structure AttentionBrokerServer where
  rpcApiEnabled : Bool
  workerThreads : WorkerThreads Message
  hebbianNetwork : NetworkMap
  networks : Pool HebbianNetwork

namespace AttentionBrokerServer

/-! ## Construction -/

/-- `GLOBAL_CONTEXT`. -/
def globalContext : String := "global"

/-- `WORKER_THREADS_COUNT`. -/
def workerThreadsCount : Nat := 10

/-- The `WorkerThreads` object and its workers, right after they were created. -/
def newWorkerThreads : ThreadPool Message := ThreadPool.start (List.range workerThreadsCount)

/-- `AttentionBrokerServer::AttentionBrokerServer`. -/
def new : AttentionBrokerServer where
  rpcApiEnabled := true
  workerThreads := newWorkerThreads.shared
  hebbianNetwork := (∅ : NetworkMap).insert globalContext (some 0)
  networks := (Pool.empty .new).alloc .new

/-! ## Networks -/

/-- `hebbian_network[context]` as an expression of the server. -/
def index (context : String) (s : AttentionBrokerServer) : Option Nat × AttentionBrokerServer :=
  let (network, map) := s.hebbianNetwork.index context
  (network, { s with hebbianNetwork := map })

/-- `network = new HebbianNetwork(); hebbian_network[context] = network;`. -/
def create (context : String) (s : AttentionBrokerServer) : Option Nat × AttentionBrokerServer :=
  (some s.networks.next,
    { s with
      networks := s.networks.alloc .new
      hebbianNetwork := s.hebbianNetwork.insert context (some s.networks.next) })

/-- `hebbian_network.find(context) != hebbian_network.end()`. -/
def found (context : String) (s : AttentionBrokerServer) : Bool :=
  (s.hebbianNetwork.lookup context).isSome

/-- `AttentionBrokerServer::select_hebbian_network`. The second part sets `network` again. -/
def selectHebbianNetwork (context : String) (s : AttentionBrokerServer) :
    Option Nat × AttentionBrokerServer :=
  let s := if context ≠ "" ∧ s.found context then (s.index context).2 else s
  if context = "" then s.index globalContext
  else if s.found context then s.index context
  else s.create context

/-! ## Calls -/

/-- What `stimulate` and `correlate` do with a request before they answer. -/
def submit (message : Message) (s : AttentionBrokerServer) :
    Except Fault AttentionBrokerServer :=
  if message.request.size > 0 then do
    let (network, s) := s.selectHebbianNetwork message.context
    let workerThreads ← s.workerThreads.enqueue message.request.type
      { message with hebbianNetwork := network }
    .ok { s with workerThreads := workerThreads }
  else .ok s

/-- The status of a call. -/
def status (s : AttentionBrokerServer) : Status := if s.rpcApiEnabled then .ok else .cancelled

/-- `AttentionBrokerServer::stimulate`. -/
def stimulate (handleCount : HandleCount) (context : String) (s : AttentionBrokerServer) :
    Except Fault ((Status × String) × AttentionBrokerServer) := do
  let s ← s.submit
    { request := .stimulus handleCount, context := context, hebbianNetwork := none }
  .ok ((s.status, "STIMULATE"), s)

/-- `AttentionBrokerServer::correlate`. -/
def correlate (handleList : List Key) (context : String) (s : AttentionBrokerServer) :
    Except Fault ((Status × String) × AttentionBrokerServer) := do
  let s ← s.submit
    { request := .correlation handleList, context := context, hebbianNetwork := none }
  .ok ((s.status, "CORRELATE"), s)

/-! ## What a call changes -/

variable {s s' : AttentionBrokerServer} {m : Message}

theorem selectHebbianNetwork_frame (context : String) (s : AttentionBrokerServer) :
    (s.selectHebbianNetwork context).2.rpcApiEnabled = s.rpcApiEnabled ∧
      (s.selectHebbianNetwork context).2.workerThreads = s.workerThreads := by
  dsimp only [selectHebbianNetwork]
  split_ifs <;> exact ⟨rfl, rfl⟩

/-- `stimulate` is `submit`, and then an answer. -/
theorem stimulate_state (handleCount : HandleCount) (context : String)
    (s : AttentionBrokerServer) :
    (s.stimulate handleCount context).map Prod.snd = s.submit
      { request := .stimulus handleCount, context := context, hebbianNetwork := none } := by
  unfold stimulate
  cases s.submit { request := .stimulus handleCount, context := context, hebbianNetwork := none }
  <;> rfl

/-- `correlate` is `submit`, and then an answer. -/
theorem correlate_state (handleList : List Key) (context : String) (s : AttentionBrokerServer) :
    (s.correlate handleList context).map Prod.snd = s.submit
      { request := .correlation handleList, context := context, hebbianNetwork := none } := by
  unfold correlate
  cases s.submit { request := .correlation handleList, context := context, hebbianNetwork := none }
  <;> rfl

/-- A call that returns has skipped an empty request, or enqueued its request. -/
theorem submit_ok (hrun : s.submit m = .ok s') :
    (m.request.size = 0 ∧ s' = s) ∨
    (0 < m.request.size ∧ ∃ workerThreads,
      s.workerThreads.enqueue m.request.type
          { m with hebbianNetwork := (s.selectHebbianNetwork m.context).1 } = .ok workerThreads ∧
        s' = { (s.selectHebbianNetwork m.context).2 with workerThreads := workerThreads }) := by
  unfold submit at hrun
  split at hrun
  · next hsize =>
    refine .inr ⟨hsize, ?_⟩
    have hframe := (selectHebbianNetwork_frame m.context s).2
    cases henqueue : s.workerThreads.enqueue m.request.type
        { m with hebbianNetwork := (s.selectHebbianNetwork m.context).1 } with
    | error e => simp [hframe, henqueue, bind, Except.bind] at hrun
    | ok workerThreads =>
      refine ⟨workerThreads, rfl, ?_⟩
      simpa [hframe, henqueue, bind, Except.bind] using hrun.symm
  · next hsize =>
    cases hrun
    exact .inl ⟨Nat.eq_zero_of_not_pos hsize, rfl⟩

end AttentionBrokerServer

end AttentionBroker
