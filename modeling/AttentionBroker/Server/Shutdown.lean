import AttentionBroker.Server.AttentionBrokerServer

/-!
# Calls during `graceful_shutdown`

A call of `stimulate` or `correlate` takes two steps: it enqueues its request, and it reads
`rpc_api_enabled` for its status. `graceful_shutdown` takes two steps as well: it clears that
flag, and it sets `stop_flag`. All these steps and those of the workers interleave.

The documentation says that a request which comes in after the start of a shutdown is denied. But
it is in its queue before it is denied, and a worker that still looks there processes it.
`denied_unprocessed_iff` says when that happens.
-/

namespace AttentionBroker

open Infra

/--
A call of `stimulate` or `correlate` after its first step.

`serial` is the number of its request among all that were enqueued. A call whose request was
empty has none.
-/
structure RpcCall where
  type : RequestType
  serial : Option Nat
  status : Option Status
deriving DecidableEq

/-- The call returned CANCELLED, and `n` is its request. -/
def RpcCall.Denied (c : RpcCall) (n : Nat) : Prop := c.status = some .cancelled ∧ c.serial = some n

/--
The server with its workers and the calls it has received.

`shutdowns` counts the calls of `graceful_shutdown` that have cleared `rpc_api_enabled` and not
yet set `stop_flag`.
-/
structure Service where
  server : AttentionBrokerServer
  workers : List (Worker Message)
  calls : List RpcCall
  shutdowns : Nat

namespace Service

/-- What can happen next. -/
inductive Action where
  | receive (message : Message)
  | answer (i : Nat)
  | shutdown
  | stop
  | worker (i : Nat)

/-- The queues, `stop_flag` and the workers. -/
def pool (s : Service) : ThreadPool Message where
  shared := s.server.workerThreads
  locals := s.workers

/-- The service after a step of its pool. -/
def withPool (s : Service) (p : ThreadPool Message) : Service :=
  { s with
    server := { s.server with workerThreads := p.shared }
    workers := p.locals }

/-- The call that a message starts. -/
def opened (s : Service) (message : Message) : RpcCall where
  type := message.request.type
  serial :=
    if message.request.size > 0 then some s.server.workerThreads.enqueued.length else none
  status := none

/-- Performs an action. `answer i` is the second step of a call and is possible once. -/
def step (s : Service) : Action → Option Service
  | .receive message => do
    let server ← (s.server.submit message).toOption
    return { s with server := server, calls := s.calls ++ [s.opened message] }
  | .answer i => do
    let call ← s.calls[i]?
    if call.status = none then
      return { s with calls := s.calls.set i { call with status := some s.server.status } }
    else none
  | .shutdown =>
    return { s with
      server := { s.server with rpcApiEnabled := false }
      shutdowns := s.shutdowns + 1 }
  | .stop =>
    if s.shutdowns = 0 then none
    else do
      let p ← ThreadPool.step s.pool .stop
      return { s.withPool p with shutdowns := s.shutdowns - 1 }
  | .worker i => do
    let p ← ThreadPool.step s.pool (.worker i)
    return s.withPool p

/-- The service right after the construction of the server. -/
def start : Service where
  server := .new
  workers := AttentionBrokerServer.newWorkerThreads.locals
  calls := []
  shutdowns := 0

/-- The two steps of a call that runs alone are `stimulate` or `correlate`. -/
theorem call_alone {s : Service} {m : Message} {server : AttentionBrokerServer}
    (hrun : s.server.submit m = .ok server) :
    run step s [.receive m, .answer s.calls.length] = some { s with
      server := server
      calls := s.calls ++ [{ s.opened m with status := some server.status }] } := by
  have hreceive : s.step (.receive m)
      = some { s with server := server, calls := s.calls ++ [s.opened m] } := by
    simp [step, hrun, Except.toOption]
  rw [run_of_step hreceive, run]
  simp [step, opened, run]

/-! ## Denied requests -/

/-- Request `n` has been processed. -/
def Processed (s : Service) (n : Nat) : Prop :=
  ∃ p ∈ s.server.workerThreads.processed, p.2.serial = n

/-- Request `n` is in the queue of its type. -/
def Waiting (s : Service) (T : RequestType) (n : Nat) : Prop :=
  ∃ t ∈ (s.server.workerThreads.queue T).toList, t.serial = n

/-- All workers that take requests of this type have found their queue empty. -/
def Asleep (s : Service) (T : RequestType) : Prop :=
  ∀ w ∈ s.workers, w.type = T → w.state = .sleeping ∨ w.state = .exited

/-- The request is in its queue and no worker looks there. -/
def Abandoned (s : Service) (T : RequestType) (n : Nat) : Prop := s.Waiting T n ∧ s.Asleep T

/-- **No request whose caller received CANCELLED has been processed.** -/
def DeniedUnprocessed (s : Service) : Prop := ∀ c ∈ s.calls, ∀ n, c.Denied n → ¬ s.Processed n

/-- All requests whose caller received CANCELLED are abandoned. -/
def DeniedAbandoned (s : Service) : Prop := ∀ c ∈ s.calls, ∀ n, c.Denied n → s.Abandoned c.type n

/--
The steps that do not let a denied request through.

A call that finds the flag cleared had an empty request, or one that is abandoned. A worker
that wakes up before `stop_flag` is set finds no denied request in its queue.
-/
def Harmless (s : Service) : Action → Prop
  | .answer i => ∀ c ∈ s.calls[i]?, s.server.rpcApiEnabled = false →
      ∀ n, c.serial = some n → s.Abandoned c.type n
  | .worker i => ∀ w ∈ s.workers[i]?, w.state = .sleeping →
      s.server.workerThreads.stopFlag = false →
        ∀ c ∈ s.calls, ∀ n, c.Denied n → c.type = w.type → ¬ s.Waiting c.type n
  | _ => True

/-! ## One step -/

variable {s s' : Service} {a : Action} {i : Nat} {m : Message} {w : Worker Message}

/-- What every state satisfies. A call with a request has enqueued it. -/
structure Tracked (s : Service) : Prop where
  pool : s.pool.Accounted
  calls : ∀ c ∈ s.calls, ∀ n, c.serial = some n →
    ∃ t, (c.type, t) ∈ s.server.workerThreads.enqueued ∧ t.serial = n

theorem Tracked.lt (h : Tracked s) {c : RpcCall} (hc : c ∈ s.calls) {n : Nat}
    (hn : c.serial = some n) : n < s.server.workerThreads.enqueued.length := by
  obtain ⟨t, ht, rfl⟩ := h.calls c hc n hn
  have hserials : s.server.workerThreads.enqueued.map (·.2.serial)
      = List.range s.server.workerThreads.enqueued.length := h.pool.serials
  have hmem : t.serial ∈ s.server.workerThreads.enqueued.map (·.2.serial) :=
    List.mem_map_of_mem ht
  rw [hserials] at hmem
  exact List.mem_range.mp hmem

/-- A step that does not change which denied requests are abandoned. -/
theorem deniedAbandoned_congr (hcalls : s'.calls = s.calls)
    (h : ∀ T n, s'.Abandoned T n ↔ s.Abandoned T n) :
    s'.DeniedAbandoned ↔ s.DeniedAbandoned := by
  rw [DeniedAbandoned, DeniedAbandoned, hcalls]
  exact forall₂_congr fun c _ => forall_congr' fun n => imp_congr_right fun _ => h c.type n

/-- What is waiting stays there when another request is enqueued. -/
theorem waiting_push {ws : WorkerThreads Message} {T T' : RequestType} {n : Nat}
    {q : RequestQueue (Ticket Message)} {t : Ticket Message}
    (hq : q.Holds ((ws.queue T).toList ++ [t])) (hne : t.serial ≠ n) :
    (∃ t' ∈ ((ws.setQueue q T).queue T').toList, t'.serial = n)
      ↔ ∃ t' ∈ (ws.queue T').toList, t'.serial = n := by
  constructor
  · rintro ⟨t', ht', hn⟩
    rcases (WorkerThreads.mem_queue_push hq (T', t')).mp ht' with hold | hnew
    · exact ⟨t', hold, hn⟩
    · rw [(Prod.mk.inj hnew).2] at hn
      exact absurd hn hne
  · rintro ⟨t', ht', hn⟩
    exact ⟨t', (WorkerThreads.mem_queue_push hq (T', t')).mpr (.inl ht'), hn⟩

/-- A new call has no status yet, and its request is not one of an older call. -/
theorem receive_ok (h : Tracked s) (hstep : s.step (.receive m) = some s') :
    Tracked s' ∧ (s'.DeniedAbandoned ↔ s.DeniedAbandoned) := by
  cases hrun : s.server.submit m with
  | error e => simp [step, hrun, Except.toOption] at hstep
  | ok server =>
    have hs' : { s with server := server, calls := s.calls ++ [s.opened m] } = s' := by
      simpa [step, hrun, Except.toOption] using hstep
    subst hs'
    have hopened : ∀ n, ¬ (s.opened m).Denied n := fun n hd => by cases hd.1
    have hiff : ∀ {P : RpcCall → Nat → Prop},
        (∀ c ∈ s.calls ++ [s.opened m], ∀ n, c.Denied n → P c n)
          ↔ ∀ c ∈ s.calls, ∀ n, c.Denied n → P c n := by
      intro P
      simp only [List.forall_mem_append, List.forall_mem_singleton]
      exact and_iff_left fun n hd => absurd hd (hopened n)
    rcases AttentionBrokerServer.submit_ok hrun with ⟨hsize, rfl⟩ | ⟨hsize, ws, henqueue, rfl⟩
    · have hserial : (s.opened m).serial = none := by simp [opened, hsize]
      refine ⟨⟨h.pool, ?_⟩, hiff⟩
      refine List.forall_mem_append.mpr ⟨h.calls, List.forall_mem_singleton.mpr ?_⟩
      intro n hn
      rw [hserial] at hn
      cases hn
    · have hserial : (s.opened m).serial = some s.server.workerThreads.enqueued.length := by
        simp [opened, hsize]
      obtain ⟨hpool, -⟩ := ThreadPool.enqueue_ok (s := s.pool) henqueue h.pool
      obtain ⟨q, t, hq, ht, rfl⟩ := WorkerThreads.enqueue_eq h.pool.wf henqueue
      refine ⟨⟨hpool, List.forall_mem_append.mpr ⟨?_, List.forall_mem_singleton.mpr ?_⟩⟩, ?_⟩
      · intro c hc n hn
        obtain ⟨t', ht', htn⟩ := h.calls c hc n hn
        exact ⟨t', List.mem_append_left _ ht', htn⟩
      · intro n hn
        rw [hserial] at hn
        obtain rfl := Option.some.inj hn
        exact ⟨t, List.mem_append_right _ (List.mem_singleton_self _), congrArg Ticket.serial ht⟩
      · refine hiff.trans ?_
        refine forall₂_congr fun c hc => forall_congr' fun n => imp_congr_right fun hd => ?_
        refine and_congr_left fun _ => ?_
        -- serials are dealt out in order, so the new request has another one
        have hne : t.serial ≠ n := by
          rw [ht]
          exact Nat.ne_of_gt (h.lt hc hd.2)
        exact waiting_push hq hne

theorem answer_ok (h : Tracked s) (hstep : s.step (.answer i) = some s') :
    Tracked s' ∧ (s'.DeniedAbandoned ↔ s.DeniedAbandoned ∧ s.Harmless (.answer i)) := by
  obtain ⟨c, hc, hrest⟩ := Option.bind_eq_some_iff.mp hstep
  by_cases hopen : c.status = none
  · rw [if_pos hopen] at hrest
    cases hrest
    let p : Parties Unit RpcCall := { shared := (), locals := s.calls }
    have hp : p.locals[i]? = some c := hc
    have hcalls : ∀ x ∈ p.locals.set i { c with status := some s.server.status }, ∀ n,
        x.serial = some n → ∃ t, (x.type, t) ∈ s.server.workerThreads.enqueued ∧ t.serial = n :=
      Parties.forall_set h.calls (h.calls c (Parties.mem_of_get hp))
    refine ⟨⟨h.pool, hcalls⟩, ?_⟩
    have hharmless : s.Harmless (.answer i) ↔ ∀ n,
        ({ c with status := some s.server.status } : RpcCall).Denied n → s.Abandoned c.type n := by
      simp only [Harmless, hc, Option.mem_def, Option.some.injEq, forall_eq', RpcCall.Denied,
        AttentionBrokerServer.status, ite_eq_right_iff, reduceCtorEq, imp_false, Bool.not_eq_true,
        and_imp]
      exact ⟨fun hok n hflag hn => hok hflag n hn, fun hok hflag n hn => hok n hflag hn⟩
    have hold : s.DeniedAbandoned ↔
        ∀ x ∈ p.others i, ∀ n, x.Denied n → s.Abandoned x.type n := by
      refine (Parties.forall_locals hp).trans (and_iff_right fun n hd => ?_)
      cases hopen.symm.trans hd.1
    rw [hharmless, hold, and_comm]
    exact Parties.forall_set_others hp _
  · rw [if_neg hopen] at hrest
    cases hrest

/-- All that a step of a worker changes is what it wakes up to. -/
theorem abandoned_move {ws : WorkerThreads Message} {state : WorkerState Message}
    (hw : s.workers[i]? = some w) (hm : w.Moves s.server.workerThreads ws state)
    (T : RequestType) (n : Nat) :
    (s.withPool { shared := ws
                  locals := s.workers.set i { w with state := state } }).Abandoned T n
      ↔ s.Abandoned T n ∧ ¬ (T = w.type ∧ w.state = .sleeping ∧ state = .selecting) := by
  have hafter : (s.withPool { shared := ws
                              locals := s.workers.set i { w with state := state } }).Asleep T
      ↔ (w.type = T → state = .sleeping ∨ state = .exited) ∧
        ∀ x ∈ s.pool.others i, x.type = T → x.state = .sleeping ∨ x.state = .exited :=
    Parties.forall_set_others (s := s.pool) hw _
  have hbefore : s.Asleep T ↔ (w.type = T → w.state = .sleeping ∨ w.state = .exited) ∧
      ∀ x ∈ s.pool.others i, x.type = T → x.state = .sleeping ∨ x.state = .exited :=
    Parties.forall_locals (s := s.pool) hw
  rw [Abandoned, Abandoned, hafter, hbefore]
  by_cases hT : T = w.type
  · subst hT
    cases hm with
    | take hs => simp [hs]
    | sleep hs hl => simp [hs, hl, Waiting, withPool]
    | process hs => simp [hs]
    | wake hs => simp [hs]
    | exit hs => simp [hs, Waiting, withPool]
    | stay hs => simp [hs, Waiting, withPool]
  · have hT' : w.type ≠ T := Ne.symm hT
    have hqueue : ws.queue T = s.server.workerThreads.queue T := by
      cases hm with
      | take => exact WorkerThreads.queue_setQueue_ne hT
      | process => cases T <;> rfl
      | sleep | wake | exit | stay => rfl
    simp [hT, hT', hqueue, Waiting, withPool]

theorem worker_ok (h : Tracked s) (hstep : s.step (.worker i) = some s') :
    Tracked s' ∧ (s'.DeniedAbandoned ↔ s.DeniedAbandoned ∧ s.Harmless (.worker i)) := by
  obtain ⟨p, hp, hs'⟩ := Option.bind_eq_some_iff.mp hstep
  cases hs'
  have hpool := (ThreadPool.step_ok h.pool hp).1
  cases hw : s.workers[i]? with
  | none =>
    have hturn : s.pool.turn Worker.advance i = .ok s.pool := Parties.turn_none hw
    have hsame : s.pool = p := by
      simpa [ThreadPool.step, ThreadPool.act, hturn, Except.toOption] using hp
    subst hsame
    exact ⟨⟨h.pool, h.calls⟩, by simp [Harmless, hw]; rfl⟩
  | some w =>
    obtain ⟨ws, state, hrun, hm⟩ := Worker.advance_moves h.pool.wf w
    have hturn := Parties.turn_ok (s := s.pool) hw hrun
    have hmoved :
        { shared := ws, locals := s.pool.locals.set i { w with state := state } } = p := by
      simpa [ThreadPool.step, ThreadPool.act, hturn, Except.toOption] using hp
    subst hmoved
    refine ⟨⟨hpool, ?_⟩, ?_⟩
    · show ∀ c ∈ s.calls, ∀ n, c.serial = some n → ∃ t, (c.type, t) ∈ ws.enqueued ∧ t.serial = n
      rw [(ThreadPool.moves_ledger hm).1]
      exact h.calls
    · have hharmless : s.Harmless (.worker i) ↔ (w.state = .sleeping ∧ state = .selecting →
          ∀ c ∈ s.calls, ∀ n, c.Denied n → c.type = w.type → ¬ s.Waiting c.type n) := by
        rw [hm.wakes_iff, and_imp]
        simp only [Harmless, hw, Option.mem_def, Option.some.injEq, forall_eq']
        rfl
      rw [hharmless]
      constructor
      · intro hd
        have hboth : ∀ c ∈ s.calls, ∀ n, c.Denied n → s.Abandoned c.type n ∧
            ¬ (c.type = w.type ∧ w.state = .sleeping ∧ state = .selecting) :=
          fun c hc n hn => (abandoned_move hw hm c.type n).mp (hd c hc n hn)
        exact ⟨fun c hc n hn => (hboth c hc n hn).1,
          fun hwake c hc n hn htype => absurd ⟨htype, hwake⟩ (hboth c hc n hn).2⟩
      · rintro ⟨hd, hok⟩ c hc n hn
        refine (abandoned_move hw hm c.type n).mpr ⟨hd c hc n hn, fun ht => ?_⟩
        exact hok ht.2 c hc n hn ht.1 (hd c hc n hn).1

/-- **What a step does to the denied requests.** -/
theorem step_ok (h : Tracked s) (hstep : s.step a = some s') :
    Tracked s' ∧ (s'.DeniedAbandoned ↔ s.DeniedAbandoned ∧ s.Harmless a) := by
  cases a with
  | receive m =>
    obtain ⟨ht, hiff⟩ := receive_ok h hstep
    exact ⟨ht, hiff.trans (and_iff_left trivial).symm⟩
  | answer i => exact answer_ok h hstep
  | shutdown =>
    cases hstep
    exact ⟨⟨h.pool, h.calls⟩, show s.DeniedAbandoned ↔ s.DeniedAbandoned ∧ True by simp⟩
  | stop =>
    by_cases hnone : s.shutdowns = 0
    · rw [step, if_pos hnone] at hstep
      cases hstep
    · rw [step, if_neg hnone] at hstep
      obtain ⟨p, hp, hs'⟩ := Option.bind_eq_some_iff.mp hstep
      have hpool := (ThreadPool.step_ok h.pool hp).1
      cases hp
      cases hs'
      refine ⟨⟨hpool, h.calls⟩, Iff.trans ?_ (and_iff_left trivial).symm⟩
      refine deniedAbandoned_congr rfl fun T n => ?_
      cases T <;> rfl
  | worker i => exact worker_ok h hstep

/-! ## Whole runs -/

theorem mem_queued {T : RequestType} {n : Nat} (h : s.Waiting T n) :
    ∃ r ∈ s.pool.shared.queued, r.2.serial = n := by
  obtain ⟨t, ht, hn⟩ := h
  exact ⟨(T, t), WorkerThreads.mem_queued.mpr ht, hn⟩

/-- An abandoned request has not been processed. -/
theorem Tracked.deniedUnprocessed (h : Tracked s) (hd : s.DeniedAbandoned) :
    s.DeniedUnprocessed := by
  rintro c hc n hn ⟨p, hp, hpn⟩
  obtain ⟨r, hr, hrn⟩ := mem_queued (hd c hc n hn).1
  exact h.pool.serials_disjoint.2 p hp r hr (hpn.trans hrn.symm)

/-- When all workers have exited, a request that has not been processed is abandoned. -/
theorem Tracked.deniedUnprocessed_iff (h : Tracked s) (hexit : s.pool.AllExited) :
    s.DeniedUnprocessed ↔ s.DeniedAbandoned := by
  refine ⟨fun hu c hc n hn => ⟨?_, fun w hw _ => .inr (hexit w hw)⟩, h.deniedUnprocessed⟩
  obtain ⟨t, ht, htn⟩ := h.calls c hc n hn.2
  have hmem : (c.type, t) ∈ (s.pool.shared.enqueued : Multiset (RequestType × Ticket Message)) := ht
  rw [h.pool.ledger_exited hexit, Multiset.mem_add] at hmem
  rcases hmem with hp | hq
  · exact absurd ⟨(c.type, t), hp, htn⟩ (hu c hc n hn)
  · exact ⟨t, WorkerThreads.mem_queued.mp hq, htn⟩

theorem tracked_start : Tracked start := by
  refine ⟨ThreadPool.accounted_start ⟨0, by decide, rfl⟩ ⟨1, by decide, rfl⟩, ?_⟩
  intro c hc
  cases hc

variable {actions : List Action}

/--
**When denied requests are processed.**

In a run whose steps are all harmless no request of a call that returned CANCELLED has been
processed, and once the workers have exited that is the only way.
-/
theorem denied_unprocessed_iff (hrun : run step start actions = some s) :
    (AllSteps step Harmless start actions → s.DeniedUnprocessed) ∧
      (s.pool.AllExited → (s.DeniedUnprocessed ↔ AllSteps step Harmless start actions)) := by
  have hstep : ∀ (s : Service) a s', Tracked s → step s a = some s' →
      Tracked s' ∧ (s'.DeniedAbandoned ↔ s.DeniedAbandoned ∧ s.Harmless a) :=
    fun _ _ _ h hs => step_ok h hs
  obtain ⟨hs, hiff⟩ := allSteps_iff Tracked hstep actions start s hrun tracked_start
  have hall : s.DeniedAbandoned ↔ AllSteps step Harmless start actions := by
    rw [hiff]
    refine and_iff_right ?_
    intro c hc
    cases hc
  refine ⟨fun h => hs.deniedUnprocessed (hall.mpr h), fun hexit => ?_⟩
  rw [hs.deniedUnprocessed_iff hexit, hall]

/-- A stimulus for the global context. -/
def stimulusMessage : Message :=
  { request := .stimulus stimulusOfA, context := "", hebbianNetwork := none }

/-- The next step of each worker. -/
def eachWorker : List Action := (List.range AttentionBrokerServer.workerThreadsCount).map .worker

/-- All workers sleep when a request comes in, and exit without another look at their queues. -/
def lateRequest : List Action :=
  eachWorker.append
    (.shutdown :: .receive stimulusMessage :: .answer 0 :: .stop :: eachWorker)

theorem denied_unprocessed_iff_asleep :
    ∃ s, run step start lateRequest = some s ∧
      (AllSteps step Harmless start lateRequest → s.DeniedUnprocessed) ∧
      (s.pool.AllExited →
        (s.DeniedUnprocessed ↔ AllSteps step Harmless start lateRequest)) := by
  have hsome : (run step start lateRequest).isSome = true := by decide +kernel
  obtain ⟨s, hrun⟩ := Option.isSome_iff_exists.mp hsome
  exact ⟨s, hrun, denied_unprocessed_iff hrun⟩

/--
A denied request that is processed.

The shutdown has cleared the flag when the stimulus comes in. It is enqueued and denied, and
then a worker takes and processes it.
-/
theorem denied_processed :
    ∃ s, run step start [.shutdown, .receive stimulusMessage, .answer 0, .worker 0, .worker 0]
        = some s ∧ ¬ s.DeniedUnprocessed := by
  have hrun : (run step start [.shutdown, .receive stimulusMessage, .answer 0, .worker 0,
      .worker 0]).map (fun s => (s.calls, s.server.workerThreads.processed.map (·.2.serial)))
      = some ([{ type := .stimulus, serial := some 0, status := some .cancelled }], [0]) := by
    decide +kernel
  obtain ⟨s, hs, he⟩ := Option.map_eq_some_iff.mp hrun
  obtain ⟨hcalls, hprocessed⟩ := Prod.mk.inj he
  refine ⟨s, hs, fun hu => ?_⟩
  have hmem : 0 ∈ s.server.workerThreads.processed.map (·.2.serial) := by
    rw [hprocessed]
    exact List.mem_singleton_self 0
  obtain ⟨p, hp, hserial⟩ := List.mem_map.mp hmem
  exact hu _ (hcalls ▸ List.mem_singleton_self _) 0 ⟨rfl, rfl⟩ ⟨p, hp, hserial⟩

end Service

end AttentionBroker
