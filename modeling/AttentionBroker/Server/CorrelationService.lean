import AttentionBroker.Hebbian.ConcurrentCounting
import AttentionBroker.Server.Contexts

/-!
# Correlation requests from the call to the count

Calls of `correlate` come in for any contexts while the ten workers run. A call is one step, and
so is a pass through a queue or a read of `stop_flag`. A worker that has taken a request runs
`correlation` on the network that the request points to, statement by statement, so workers work
on one network at the same time.

`WorkerThread.outcome` says what the next step of a thread may be.
-/

namespace AttentionBroker

open Infra

/-- `handle_list` of a correlation request. -/
def Request.handleLists : Request → List (List Key)
  | .correlation handleList => [handleList]
  | .stimulus _ => []

/-- What the threads share. A `largest_arity_mutex` is known by the address of its network. -/
structure ServerMemory where
  server : AttentionBrokerServer
  locked : Nat → Bool

namespace ServerMemory

/-- The network object at an address, with its mutex. -/
def network (s : ServerMemory) (a : Nat) : SharedNetwork :=
  { net := s.server.networks.cell a, locked := s.locked a }

/-- Changes a network object and its mutex. -/
def setNetwork (s : ServerMemory) (a : Nat) (n : SharedNetwork) : ServerMemory :=
  { server := s.server.setNetwork a n.net, locked := Function.update s.locked a n.locked }

/-- Changes the queues or the flag. -/
def setWorkerThreads (s : ServerMemory) (ws : WorkerThreads Message) : ServerMemory :=
  { s with server := { s.server with workerThreads := ws } }

end ServerMemory

/-- A thread that runs `worker_thread`, with its `HebbianNetworkUpdater`. -/
structure WorkerThread where
  worker : Worker Message
  updater : CorrelationWorker

/-- The updater of a worker that has come to a new state. -/
def WorkerState.updater : WorkerState Message → CorrelationWorker
  | .processing _ ticket => .start ticket.request.request.handleLists
  | _ => .start []

namespace WorkerThread

/-- The request that the worker processes. -/
def ticket (t : WorkerThread) : Option (Ticket Message) :=
  match t.worker.state with
  | .processing _ ticket => some ticket
  | _ => none

/-- `request->hebbian_network()`. -/
def pointer (t : WorkerThread) : Option Nat :=
  t.ticket.bind fun ticket => ticket.request.hebbianNetwork

/-- The network that the next statement of `correlation` is about, if there is one. -/
def network (t : WorkerThread) : Option Nat := if t.updater.Finished then none else t.pointer

/-- The next step of a worker. The request is processed when `correlation` has returned. -/
def advance (t : WorkerThread) (s : ServerMemory) :
    Except Obstacle (ServerMemory × WorkerThread) :=
  match t.network with
  | some a => do
    let (n, updater) ← t.updater.advance (s.network a)
    .ok (s.setNetwork a n, { t with updater := updater })
  | none => do
    let (ws, worker) ← (t.worker.advance s.server.workerThreads).mapError .fault
    .ok (s.setWorkerThreads ws, { worker := worker, updater := worker.state.updater })

end WorkerThread

/-- The server and its workers. -/
abbrev CorrelationService := Parties ServerMemory WorkerThread

namespace CorrelationService

/-- What can happen next: a call comes in, `graceful_stop` sets the flag, a worker goes on. -/
inductive Action where
  | correlate (handleList : List Key) (context : String)
  | stop
  | thread (i : Nat)

/-- Performs an action. A call is one step, so the calls come in one after the other. -/
def act (s : CorrelationService) : Action → Except Obstacle CorrelationService
  | .correlate handleList context => do
    let (_, server) ← (s.shared.server.correlate handleList context).mapError .fault
    .ok { s with shared := { s.shared with server := server } }
  | .stop =>
    let ws := { s.shared.server.workerThreads with stopFlag := true }
    .ok { s with shared := s.shared.setWorkerThreads ws }
  | .thread i => s.turn WorkerThread.advance i

/-- An action as a step of a run, which a fault ends. -/
def step (s : CorrelationService) (a : Action) : Option CorrelationService := (act s a).toOption

/-- The service right after the construction of the server. -/
def start : CorrelationService where
  shared := { server := .new, locked := fun _ => false }
  locals := AttentionBrokerServer.newWorkerThreads.locals.map fun worker =>
    { worker := worker, updater := .start [] }

/-- The queues, the flag and the workers. -/
def pool (s : CorrelationService) : ThreadPool Message where
  shared := s.shared.server.workerThreads
  locals := s.locals.map WorkerThread.worker

/-- The lists of the calls for a context in a run. -/
def listsOf (context : String) (actions : List Action) : List (List Key) :=
  actions.flatMap fun
    | .correlate handleList c =>
      if AttentionBrokerServer.canonical c = AttentionBrokerServer.canonical context
      then [handleList] else []
    | _ => []

/-- All requests of the context that were enqueued are processed. -/
def Settled (s : CorrelationService) (context : String) : Prop :=
  ∀ r ∈ s.shared.server.workerThreads.enqueued,
    AttentionBrokerServer.canonical r.2.request.context
        = AttentionBrokerServer.canonical context →
      r ∈ s.shared.server.workerThreads.processed

end CorrelationService

/-! ## What is still to add -/

/-- The lists of a request, if it is for the context. -/
def Ticket.listsFor (context : String) (ticket : Ticket Message) : List (List Key) :=
  if AttentionBrokerServer.canonical ticket.request.context
      = AttentionBrokerServer.canonical context
  then ticket.request.request.handleLists else []

namespace WorkerThread

variable {t t' : WorkerThread} {s s' : ServerMemory} {server server' : AttentionBrokerServer}
  {context : String}

/-- The worker processes a request of a context. -/
def isFor (context : String) (t : WorkerThread) : Bool :=
  t.ticket.any fun ticket =>
    AttentionBrokerServer.canonical ticket.request.context
      = AttentionBrokerServer.canonical context

/-- What a thread does for a context. -/
def updaterFor (context : String) (t : WorkerThread) : CorrelationWorker :=
  if t.isFor context then t.updater else .start []

/-- The thread has locked the `largest_arity_mutex` of a network. -/
def holdsAt (a : Nat) (t : WorkerThread) : Bool := decide (t.pointer = some a) && t.updater.holds

/-- What a thread relies on. -/
structure InPlace (network : String → HebbianNetwork) (t : WorkerThread) : Prop where
  idle : t.ticket = none → t.updater = .start []
  busy : ∀ ticket, t.ticket = some ticket → t.updater.InPlace (network ticket.request.context)

/-- What the next step of a thread changes. -/
inductive Moves (t : WorkerThread) (s : ServerMemory) : ServerMemory → WorkerThread → Prop
  | worker {ws : WorkerThreads Message} {state : WorkerState Message} (hn : t.network = none)
      (hm : t.worker.Moves s.server.workerThreads ws state) :
      Moves t s (s.setWorkerThreads ws)
        { worker := { t.worker with state := state }, updater := state.updater }
  | updater {a : Nat} {n : SharedNetwork} {updater : CorrelationWorker} (hn : t.network = some a)
      (hs : t.updater.Steps (s.network a) n updater) :
      Moves t s (s.setNetwork a n) { t with updater := updater }

/-- What the next step of a thread may be. -/
def Outcome (s : ServerMemory) (t : WorkerThread) :
    Except Obstacle (ServerMemory × WorkerThread) → Prop
  | .ok (s', t') => t.Moves s s' t'
  | .error .waits => ∃ a, t.network = some a ∧ s.locked a = true ∧ t.updater.holds = false
  | .error _ => False

theorem updaterFor_finished (h : t.updater.Finished) : (t.updaterFor context).Finished := by
  unfold updaterFor
  split
  · exact h
  · exact ⟨rfl, rfl, rfl⟩

/-- A worker that takes a request has its list to add. -/
theorem updaterFor_take {threadId : Nat} {T : RequestType} {ticket : Ticket Message}
    {state : WorkerState Message} (hs : state = .processing T ticket) :
    updaterFor context { worker := { threadId := threadId, state := state },
                         updater := state.updater } = .start (ticket.listsFor context) := by
  subst hs
  simp only [updaterFor, isFor, WorkerThread.ticket, Option.any_some, decide_eq_true_eq,
    Ticket.listsFor]
  split <;> rfl

/-- A worker without a request has nothing to add. -/
theorem updaterFor_idle {threadId : Nat} {state : WorkerState Message}
    (hs : ∀ T ticket, state ≠ .processing T ticket) :
    updaterFor context { worker := { threadId := threadId, state := state },
                         updater := state.updater } = .start [] := by
  cases state with
  | processing T ticket => exact absurd rfl (hs T ticket)
  | selecting | sleeping | exited => rfl

theorem network_eq_some {a : Nat} (h : t.network = some a) :
    ¬ t.updater.Finished ∧ t.pointer = some a := by
  unfold network at h
  split at h
  · cases h
  · next hf => exact ⟨hf, h⟩

theorem pointer_eq_some {a : Nat} (h : t.pointer = some a) :
    ∃ ticket, t.ticket = some ticket ∧ ticket.request.hebbianNetwork = some a :=
  Option.bind_eq_some_iff.mp h

/-- **No step of a thread in place fails.** -/
theorem outcome (hwf : s.server.workerThreads.Wf)
    (hn : ∀ a, t.network = some a → (s.network a).net.Wf ∧
      t.updater.InPlace (s.network a).net ∧ (t.updater.holds = true → s.locked a = true)) :
    t.Outcome s (t.advance s) := by
  cases hnet : t.network with
  | none =>
    obtain ⟨ws, state, hadv, hm⟩ := Worker.advance_moves hwf t.worker
    have hstep : t.advance s = .ok (s.setWorkerThreads ws,
        { worker := { t.worker with state := state }, updater := state.updater }) := by
      simp only [advance, hnet, hadv, Except.mapError, bind, Except.bind]
    rw [hstep]
    exact .worker hnet hm
  | some a =>
    obtain ⟨wf, hplace, hlock⟩ := hn a hnet
    have hout := CorrelationWorker.outcome wf hplace hlock
    cases hadv : t.updater.advance (s.network a) with
    | ok r =>
      obtain ⟨n, updater⟩ := r
      have hstep : t.advance s = .ok (s.setNetwork a n, { t with updater := updater }) := by
        simp only [advance, hnet, hadv, bind, Except.bind]
      rw [hadv] at hout
      rw [hstep]
      exact .updater hnet hout
    | error e =>
      have hstep : t.advance s = .error e := by simp only [advance, hnet, hadv, bind, Except.bind]
      rw [hadv] at hout
      rw [hstep]
      cases e with
      | waits => exact ⟨a, hnet, hout⟩
      | returned => exact (network_eq_some hnet).1 hout
      | fault => exact hout

end WorkerThread

end AttentionBroker
