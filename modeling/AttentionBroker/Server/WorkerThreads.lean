import Mathlib.Algebra.BigOperators.Group.Multiset.Basic
import Mathlib.Tactic.Abel
import AttentionBroker.Infra.Parties
import AttentionBroker.Server.RequestQueue

/-!
# `WorkerThreads`

`attention_broker_server/WorkerThreads.{h,cc}` and `EvenThreadCount` of `RequestSelector.{h,cc}`.
Producers fill two queues and workers empty them until `graceful_stop` sets `stop_flag`. The
steps of a worker are the critical sections of `worker_thread`: it takes a request, processes
it, and, when it got NULL, tests the flag after its sleep.

The documentation says that both queues are processed before the threads stop. A worker does
not look at its queue again after the sleep, so requests that arrive meanwhile are lost if it
is the last one. `drained_iff` says that this is all that can go wrong.
-/

namespace AttentionBroker

open Infra

/-- `RequestType`. -/
inductive RequestType where
  | stimulus
  | correlation
deriving DecidableEq

/--
A request in a queue.

No step reads anything but `request`. The rest tells requests apart: `serial` counts the calls
of `enqueue`, and `early` says that `stop_flag` was not set at that time.
-/
structure Ticket (ρ : Type) where
  serial : Nat
  request : ρ
  early : Bool
deriving DecidableEq

/--
The state that the threads share.

`enqueued` and `processed` record what happened and no step reads them. The type of a request
in `processed` is the branch of the `switch` that processed it.
-/
structure WorkerThreads (ρ : Type) where
  stimulusRequests : RequestQueue (Ticket ρ)
  correlationRequests : RequestQueue (Ticket ρ)
  stopFlag : Bool
  enqueued : List (RequestType × Ticket ρ)
  processed : List (RequestType × Ticket ρ)

/-- How far a worker is in its loop. -/
inductive WorkerState (ρ : Type) where
  | selecting
  | processing (type : RequestType) (ticket : Ticket ρ)
  | sleeping
  | exited
deriving DecidableEq

/-- A thread that runs `worker_thread`. -/
structure Worker (ρ : Type) where
  threadId : Nat
  state : WorkerState ρ

/-- The queues, the flag and the workers. -/
abbrev ThreadPool (ρ : Type) := Parties (WorkerThreads ρ) (Worker ρ)

variable {ρ : Type}

namespace WorkerThreads

/-- `EvenThreadCount::next`. -/
def next (threadId : Nat) (ws : WorkerThreads ρ) :
    Except Fault ((RequestType × Option (Ticket ρ)) × WorkerThreads ρ) :=
  if threadId % 2 = 0 then do
    let (request, queue) ← ws.stimulusRequests.dequeue
    .ok ((.stimulus, request), { ws with stimulusRequests := queue })
  else do
    let (request, queue) ← ws.correlationRequests.dequeue
    .ok ((.correlation, request), { ws with correlationRequests := queue })

/-- The queue of a type of requests. -/
def queue (ws : WorkerThreads ρ) : RequestType → RequestQueue (Ticket ρ)
  | .stimulus => ws.stimulusRequests
  | .correlation => ws.correlationRequests

/-- Replaces the queue of a type of requests. -/
def setQueue (ws : WorkerThreads ρ) (queue : RequestQueue (Ticket ρ)) :
    RequestType → WorkerThreads ρ
  | .stimulus => { ws with stimulusRequests := queue }
  | .correlation => { ws with correlationRequests := queue }

/-- A producer enqueues a request. -/
def enqueue (type : RequestType) (request : ρ) (ws : WorkerThreads ρ) :
    Except Fault (WorkerThreads ρ) := do
  let ticket : Ticket ρ :=
    { serial := ws.enqueued.length, request := request, early := !ws.stopFlag }
  let queue ← (ws.queue type).enqueue ticket
  .ok { ws.setQueue queue type with enqueued := ws.enqueued ++ [(type, ticket)] }

end WorkerThreads

namespace Worker

/--
The next step of `worker_thread`, for requests whose processing does not raise.

`worker_thread` catches nothing, so a request that raises ends the process.
-/
def advance (worker : Worker ρ) (ws : WorkerThreads ρ) :
    Except Fault (WorkerThreads ρ × Worker ρ) :=
  match worker.state with
  | .selecting => do
    let ((type, request), ws) ← ws.next worker.threadId
    match request with
    | some ticket => .ok (ws, { worker with state := .processing type ticket })
    | none => .ok (ws, { worker with state := .sleeping })
  | .processing type ticket =>
    .ok ({ ws with processed := ws.processed ++ [(type, ticket)] },
      { worker with state := .selecting })
  | .sleeping =>
    if ws.stopFlag then .ok (ws, { worker with state := .exited })
    else .ok (ws, { worker with state := .selecting })
  | .exited => .ok (ws, worker)

end Worker

namespace ThreadPool

/-- What can happen next: a request comes in, `graceful_stop` sets the flag, a worker goes on. -/
inductive Action (ρ : Type) where
  | enqueue (type : RequestType) (request : ρ)
  | stop
  | worker (i : Nat)

/-- Performs an action. -/
def act (s : ThreadPool ρ) : Action ρ → Except Fault (ThreadPool ρ)
  | .enqueue type request => do
    let ws ← s.shared.enqueue type request
    .ok { s with shared := ws }
  | .stop => .ok { s with shared := { s.shared with stopFlag := true } }
  | .worker i => s.turn Worker.advance i

/-- An action as a step of a run, which a fault ends. -/
def step (s : ThreadPool ρ) (a : Action ρ) : Option (ThreadPool ρ) := (act s a).toOption

/-- The pool right after its construction, with empty queues. -/
def start (threadIds : List Nat) : ThreadPool ρ where
  shared :=
    { stimulusRequests := .new 1000
      correlationRequests := .new 1000
      stopFlag := false
      enqueued := []
      processed := [] }
  locals := threadIds.map fun threadId => { threadId := threadId, state := .selecting }

end ThreadPool

/-! ## What a worker does -/

namespace WorkerThreads

variable {ws ws' : WorkerThreads ρ} {T T' : RequestType} {q : RequestQueue (Ticket ρ)}
  {t : Ticket ρ} {l : List (Ticket ρ)}

@[simp] theorem queue_setQueue_self : (ws.setQueue q T).queue T = q := by cases T <;> rfl

theorem queue_setQueue_ne (h : T' ≠ T) : (ws.setQueue q T).queue T' = ws.queue T' := by
  cases T <;> cases T' <;> first | rfl | exact absurd rfl h

@[simp] theorem stopFlag_setQueue : (ws.setQueue q T).stopFlag = ws.stopFlag := by cases T <;> rfl

@[simp] theorem enqueued_setQueue : (ws.setQueue q T).enqueued = ws.enqueued := by cases T <;> rfl

@[simp] theorem processed_setQueue : (ws.setQueue q T).processed = ws.processed := by
  cases T <;> rfl

/-- Both ring buffers are in order. -/
def Wf (ws : WorkerThreads ρ) : Prop := ∀ T, (ws.queue T).Holds (ws.queue T).toList

/-- The requests in a queue, with their type. -/
def entries (ws : WorkerThreads ρ) (T : RequestType) : List (RequestType × Ticket ρ) :=
  (ws.queue T).toList.map (Prod.mk T)

/-- The requests in both queues. -/
def queued (ws : WorkerThreads ρ) : Multiset (RequestType × Ticket ρ) :=
  ws.entries .stimulus + ws.entries .correlation

theorem mem_queued {p : RequestType × Ticket ρ} :
    p ∈ ws.queued ↔ p.2 ∈ (ws.queue p.1).toList := by
  obtain ⟨T, t⟩ := p
  cases T <;> simp [queued, entries]

theorem Wf.setQueue (h : ws.Wf) (hq : q.Holds l) : (ws.setQueue q T).Wf := by
  intro T'
  by_cases he : T' = T
  · rw [he, queue_setQueue_self, hq.toList_eq]
    exact hq
  · rw [queue_setQueue_ne he]
    exact h T'

theorem queued_pop (hl : (ws.queue T).toList = t :: l) (hq : q.Holds l) :
    ws.queued = {(T, t)} + (ws.setQueue q T).queued := by
  have hq' := hq.toList_eq
  cases T
  all_goals
    simp only [queue] at hl
    simp only [queued, entries, queue, setQueue, hl, hq', List.map_cons, ← Multiset.cons_coe,
      ← Multiset.singleton_add]
    abel

theorem queued_push (hq : q.Holds ((ws.queue T).toList ++ [t])) :
    (ws.setQueue q T).queued = ws.queued + {(T, t)} := by
  have hq' := hq.toList_eq
  cases T
  all_goals
    simp only [queue] at hq'
    simp only [queued, entries, queue, setQueue, hq', List.map_append, List.map_cons,
      List.map_nil, ← Multiset.coe_add, Multiset.coe_singleton]
    abel

/-- A request at the end of a queue is one more request. -/
theorem mem_queue_push (hq : q.Holds ((ws.queue T).toList ++ [t])) (p : RequestType × Ticket ρ) :
    p.2 ∈ ((ws.setQueue q T).queue p.1).toList ↔ p.2 ∈ (ws.queue p.1).toList ∨ p = (T, t) := by
  rw [← mem_queued, ← mem_queued, queued_push hq, Multiset.mem_add, Multiset.mem_singleton]

/-- A request taken from the front of a queue was one of them. -/
theorem mem_queue_pop (hl : (ws.queue T).toList = t :: l) (hq : q.Holds l)
    (p : RequestType × Ticket ρ) :
    p.2 ∈ (ws.queue p.1).toList ↔ p = (T, t) ∨ p.2 ∈ ((ws.setQueue q T).queue p.1).toList := by
  rw [← mem_queued, ← mem_queued, queued_pop hl hq, Multiset.mem_add, Multiset.mem_singleton]

/-- What a call of `enqueue` that returns has done. -/
theorem enqueue_eq (h : ws.Wf) {r : ρ} (hrun : ws.enqueue T r = .ok ws') :
    ∃ q t, q.Holds ((ws.queue T).toList ++ [t]) ∧
      t = { serial := ws.enqueued.length, request := r, early := !ws.stopFlag } ∧
      ws' = { ws.setQueue q T with enqueued := ws.enqueued ++ [(T, t)] } := by
  let t : Ticket ρ := { serial := ws.enqueued.length, request := r, early := !ws.stopFlag }
  cases hq : (ws.queue T).enqueue t with
  | error e => simp [enqueue, t, hq, bind, Except.bind] at hrun
  | ok q =>
    refine ⟨q, t, RequestQueue.enqueue_ok (h T) hq, rfl, ?_⟩
    simpa [enqueue, t, hq, bind, Except.bind] using hrun.symm

/-- The type of the requests that a thread takes. -/
def selects (threadId : Nat) : RequestType := if threadId % 2 = 0 then .stimulus else .correlation

theorem next_eq (threadId : Nat) (ws : WorkerThreads ρ) :
    ws.next threadId = (ws.queue (selects threadId)).dequeue.map fun p =>
      ((selects threadId, p.1), ws.setQueue p.2 (selects threadId)) := by
  by_cases h : threadId % 2 = 0
  · simp only [next, selects, if_pos h]
    rfl
  · simp only [next, selects, if_neg h]
    rfl

theorem setQueue_queue : ws.setQueue (ws.queue T) T = ws := by cases T <;> rfl

theorem next_nil (h : ws.Wf) {threadId : Nat} (hl : (ws.queue (selects threadId)).toList = []) :
    ws.next threadId = .ok ((selects threadId, none), ws) := by
  have hq := h (selects threadId)
  rw [hl] at hq
  rw [next_eq, RequestQueue.dequeue_nil hq, Except.map, setQueue_queue]

theorem next_cons (h : ws.Wf) {threadId : Nat}
    (hl : (ws.queue (selects threadId)).toList = t :: l) :
    ∃ q, q.Holds l ∧
      ws.next threadId = .ok ((selects threadId, some t), ws.setQueue q (selects threadId)) := by
  have hq := h (selects threadId)
  rw [hl] at hq
  obtain ⟨q, hrun, hq'⟩ := RequestQueue.dequeue_cons hq
  exact ⟨q, hq', by rw [next_eq, hrun, Except.map]⟩

end WorkerThreads

namespace Worker

open WorkerThreads

variable {ws : WorkerThreads ρ} {w : Worker ρ}

/-- The type of the requests that the worker takes. -/
def type (w : Worker ρ) : RequestType := selects w.threadId

/-- The request that the worker has taken and not yet processed. -/
def held (w : Worker ρ) : Multiset (RequestType × Ticket ρ) :=
  match w.state with
  | .processing type ticket => {(type, ticket)}
  | _ => 0

/-- What the next step of a worker changes. -/
inductive Moves (w : Worker ρ) (ws : WorkerThreads ρ) : WorkerThreads ρ → WorkerState ρ → Prop
  | take (hw : w.state = .selecting) {t : Ticket ρ} {l : List (Ticket ρ)}
      {q : RequestQueue (Ticket ρ)} (hl : (ws.queue w.type).toList = t :: l) (hq : q.Holds l) :
      Moves w ws (ws.setQueue q w.type) (.processing w.type t)
  | sleep (hw : w.state = .selecting) (hl : (ws.queue w.type).toList = []) :
      Moves w ws ws .sleeping
  | process {type : RequestType} {t : Ticket ρ} (hw : w.state = .processing type t) :
      Moves w ws { ws with processed := ws.processed ++ [(type, t)] } .selecting
  | wake (hw : w.state = .sleeping) (hs : ws.stopFlag = false) : Moves w ws ws .selecting
  | exit (hw : w.state = .sleeping) (hs : ws.stopFlag = true) : Moves w ws ws .exited
  | stay (hw : w.state = .exited) : Moves w ws ws .exited

/-- **A step of a worker is always possible.** -/
theorem advance_moves (h : ws.Wf) (w : Worker ρ) :
    ∃ ws' state, w.advance ws = .ok (ws', { w with state := state }) ∧ Moves w ws ws' state := by
  obtain ⟨threadId, state⟩ := w
  cases state with
  | selecting =>
    cases hl : (ws.queue (selects threadId)).toList with
    | nil =>
      refine ⟨ws, .sleeping, ?_, .sleep rfl hl⟩
      simp only [advance, next_nil h hl, bind, Except.bind]
    | cons t l =>
      obtain ⟨q, hq, hrun⟩ := next_cons h hl
      refine ⟨_, _, ?_, .take rfl hl hq⟩
      simp only [advance, hrun, bind, Except.bind]
      rfl
  | processing type t => exact ⟨_, _, rfl, .process rfl⟩
  | sleeping =>
    cases hs : ws.stopFlag with
    | false => exact ⟨ws, .selecting, by simp [advance, hs], .wake rfl hs⟩
    | true => exact ⟨ws, .exited, by simp [advance, hs], .exit rfl hs⟩
  | exited => exact ⟨ws, .exited, rfl, .stay rfl⟩

/-- A sleeping worker selects again exactly if the flag is not set. -/
theorem Moves.wakes_iff {ws' : WorkerThreads ρ} {state : WorkerState ρ}
    (hm : w.Moves ws ws' state) :
    (w.state = .sleeping ∧ state = .selecting) ↔ (w.state = .sleeping ∧ ws.stopFlag = false) := by
  cases hm with
  | take hw | sleep hw | process hw | stay hw => simp [hw]
  | wake hw hs | exit hw hs => simp [hw, hs]

end Worker

/-! ## Accounting -/

namespace ThreadPool

open WorkerThreads

variable {s s' : ThreadPool ρ} {a : Action ρ} {i : Nat} {w : Worker ρ} {ws : WorkerThreads ρ}
  {T : RequestType}

/-- What every state of the pool satisfies. Each request is processed, held or queued, once. -/
structure Accounted (s : ThreadPool ρ) : Prop where
  wf : s.shared.Wf
  stopped : ∀ w ∈ s.locals, w.state = .exited → s.shared.stopFlag = true
  staffed : ∀ T, ∃ w ∈ s.locals, w.type = T
  serials : s.shared.enqueued.map (·.2.serial) = List.range s.shared.enqueued.length
  ledger : (s.shared.enqueued : Multiset (RequestType × Ticket ρ)) =
    s.shared.processed + (s.locals.map Worker.held).sum + s.shared.queued

/-- Some worker that takes requests of this type has not exited. -/
def Running (workers : List (Worker ρ)) (T : RequestType) : Prop :=
  ∃ w ∈ workers, w.type = T ∧ w.state ≠ .exited

/-- A queue that nobody empties any more has no early requests. -/
def Clean (s : ThreadPool ρ) : Prop :=
  ∀ T, ¬ Running s.locals T → ∀ t ∈ (s.shared.queue T).toList, t.early = false

/--
The last running worker of its type does not exit while its queue has early requests.

The other actions need no condition.
-/
def CleanExit (s : ThreadPool ρ) : Action ρ → Prop
  | .worker i => ∀ w ∈ s.locals[i]?, w.state = .sleeping → s.shared.stopFlag = true →
      ¬ Running (s.others i) w.type → ∀ t ∈ (s.shared.queue w.type).toList, t.early = false
  | _ => True

instance [DecidableEq ρ] (workers : List (Worker ρ)) (T : RequestType) :
    Decidable (Running workers T) := inferInstanceAs (Decidable (∃ w ∈ workers, _ ∧ _))

instance [DecidableEq ρ] (s : ThreadPool ρ) (a : Action ρ) : Decidable (CleanExit s a) :=
  match a with
  | .enqueue _ _ | .stop => isTrue trivial
  | .worker i => inferInstanceAs (Decidable (∀ w ∈ s.locals[i]?, _ → _ → ¬ _ → _))

/-! ## One step -/

/-- A worker's step moves at most one request. -/
theorem moves_ledger {state : WorkerState ρ} (hm : w.Moves s.shared ws state) :
    ws.enqueued = s.shared.enqueued ∧ ws.stopFlag = s.shared.stopFlag ∧
      ((ws.processed : Multiset (RequestType × Ticket ρ))
          + ({ w with state := state } : Worker ρ).held + ws.queued
        = s.shared.processed + w.held + s.shared.queued) := by
  cases hm with
  | take hw hl hq =>
    refine ⟨enqueued_setQueue, stopFlag_setQueue, ?_⟩
    rw [processed_setQueue, queued_pop hl hq]
    simp only [Worker.held, hw]
    abel
  | process hw =>
    refine ⟨rfl, rfl, ?_⟩
    have hqueued : ∀ l, { s.shared with processed := l }.queued = s.shared.queued := fun _ => rfl
    simp only [Worker.held, hw, hqueued, ← Multiset.coe_add, Multiset.coe_singleton]
    abel
  | sleep hw | wake hw | exit hw | stay hw =>
    refine ⟨rfl, rfl, ?_⟩
    simp [Worker.held, hw]

theorem Accounted.move {state : WorkerState ρ} (h : Accounted s) (hw : s.locals[i]? = some w)
    (hm : w.Moves s.shared ws state) :
    Accounted { shared := ws, locals := s.locals.set i { w with state := state } } := by
  obtain ⟨henq, hflag, hledger⟩ := moves_ledger hm
  refine ⟨?_, ?_, fun T => ?_, ?_, ?_⟩
  · cases hm with
    | take hw hl hq => exact h.wf.setQueue hq
    | sleep | process | wake | exit | stay => exact h.wf
  · show ∀ x ∈ s.locals.set i _, x.state = .exited → ws.stopFlag = true
    rw [hflag]
    refine Parties.forall_set h.stopped fun he => ?_
    cases hm with
    | exit hw hs => exact hs
    | stay hw' => exact h.stopped w (Parties.mem_of_get hw) hw'
    | take | sleep | process | wake => cases he
  · exact (Parties.exists_set hw _).mpr ((Parties.exists_locals hw).mp (h.staffed T))
  · rw [henq]
    exact h.serials
  · have hbefore := Parties.sum_locals Worker.held hw
    have hafter := Parties.sum_set_others Worker.held hw { w with state := state }
    have hl := h.ledger
    rw [hbefore] at hl
    rw [henq, hafter, hl]
    -- only the share of this worker moves between the three parts of the ledger
    calc (s.shared.processed : Multiset (RequestType × Ticket ρ))
          + (w.held + ((s.others i).map Worker.held).sum) + s.shared.queued
        = s.shared.processed + w.held + s.shared.queued
          + ((s.others i).map Worker.held).sum := by abel
      _ = _ := by
        rw [← hledger]
        abel

/-- A turn after which its worker still runs if it did before. -/
theorem clean_set {state : WorkerState ρ} (hw : s.locals[i]? = some w)
    (hstate : state = .exited ↔ w.state = .exited)
    (hqueue : ∀ T, T ≠ w.type ∨ w.state = .exited → ws.queue T = s.shared.queue T) :
    Clean { shared := ws, locals := s.locals.set i { w with state := state } } ↔ Clean s := by
  have hrun : ∀ T, Running (s.locals.set i { w with state := state }) T ↔ Running s.locals T :=
    fun T => by
      rw [Running, Running, Parties.exists_set hw, Parties.exists_locals hw]
      exact or_congr (and_congr_right fun _ => not_congr hstate) Iff.rfl
  refine forall_congr' fun T => ?_
  rw [hrun]
  refine imp_congr_right fun hT => ?_
  have hq : ws.queue T = s.shared.queue T := by
    refine hqueue T ?_
    by_contra hne
    obtain ⟨he, hx⟩ := not_or.mp hne
    exact hT ⟨w, Parties.mem_of_get hw, (not_not.mp he).symm, hx⟩
  show (∀ t ∈ (ws.queue T).toList, _) ↔ _
  rw [hq]

/-- The turn in which a worker exits. -/
theorem clean_exit (hw : s.locals[i]? = some w) (hstate : w.state ≠ .exited) :
    Clean { s with locals := s.locals.set i { w with state := .exited } } ↔ Clean s ∧
      (¬ Running (s.others i) w.type → ∀ t ∈ (s.shared.queue w.type).toList, t.early = false) := by
  have hafter : ∀ T, Running (s.locals.set i { w with state := .exited }) T
      ↔ Running (s.others i) T := fun T => by
    rw [Running, Parties.exists_set hw]
    simp [Running]
  have hbefore : ∀ T, Running s.locals T ↔ w.type = T ∨ Running (s.others i) T := fun T => by
    rw [Running, Parties.exists_locals hw]
    simp [Running, hstate]
  constructor
  · intro hc
    refine ⟨fun T hT => hc T ?_, fun hT => hc w.type ((not_congr (hafter _)).mpr hT)⟩
    exact fun hr => hT ((hbefore T).mpr (.inr ((hafter T).mp hr)))
  · rintro ⟨hc, hlast⟩ T hT
    have hothers : ¬ Running (s.others i) T := fun hr => hT ((hafter T).mpr hr)
    by_cases he : w.type = T
    · subst he
      exact hlast hothers
    · refine hc T fun hr => ?_
      rcases (hbefore T).mp hr with he' | hr'
      · exact he he'
      · exact hothers hr'

theorem clean_move {state : WorkerState ρ} (hw : s.locals[i]? = some w)
    (hm : w.Moves s.shared ws state) :
    Clean { shared := ws, locals := s.locals.set i { w with state := state } }
      ↔ Clean s ∧ CleanExit s (.worker i) := by
  have hexit : CleanExit s (.worker i) ↔ (w.state = .sleeping → s.shared.stopFlag = true →
      ¬ Running (s.others i) w.type →
        ∀ t ∈ (s.shared.queue w.type).toList, t.early = false) := by
    simp [CleanExit, hw]
  rw [hexit]
  cases hm with
  | take hs hl hq =>
    rw [clean_set hw (by simp [hs]) fun T hT => queue_setQueue_ne (by simpa [hs] using hT)]
    simp [hs]
  | sleep hs | process hs =>
    rw [clean_set hw (by simp [hs]) fun T _ => by cases T <;> rfl]
    simp [hs]
  | wake hs hflag =>
    rw [clean_set hw (by simp [hs]) fun T _ => rfl]
    simp [hflag]
  | exit hs hflag =>
    rw [clean_exit hw (by simp [hs])]
    simp only [hs, hflag, true_imp_iff]
  | stay hs =>
    rw [clean_set hw (by simp [hs]) fun T _ => rfl]
    simp [hs]

/-- **A turn of a worker is always possible**, and leaves no early request behind unless it is
an exit that does. -/
theorem Accounted.turn (h : Accounted s) (i : Nat) :
    ∃ s', s.turn Worker.advance i = .ok s' ∧ Accounted s' ∧
      (Clean s' ↔ Clean s ∧ CleanExit s (.worker i)) := by
  cases hw : s.locals[i]? with
  | none => exact ⟨s, Parties.turn_none hw, h, by simp [CleanExit, hw]⟩
  | some w =>
    obtain ⟨ws, state, hrun, hm⟩ := Worker.advance_moves h.wf w
    exact ⟨_, Parties.turn_ok hw hrun, h.move hw hm, clean_move hw hm⟩

theorem enqueue_ok {request : ρ} (hrun : s.shared.enqueue T request = .ok ws) (h : Accounted s) :
    Accounted { s with shared := ws } ∧ (Clean { s with shared := ws } ↔ Clean s) := by
  obtain ⟨q, t, hholds, ht, rfl⟩ := enqueue_eq h.wf hrun
  refine ⟨⟨h.wf.setQueue hholds, ?_, h.staffed, ?_, ?_⟩, forall_congr' fun T' => ?_⟩
  · simpa using h.stopped
  · simp [h.serials, List.range_succ, ht]
  · have hqueued := queued_push hholds
    show ((s.shared.enqueued ++ [(T, t)] : List _) : Multiset (RequestType × Ticket ρ))
      = (s.shared.setQueue q T).processed + _ + (s.shared.setQueue q T).queued
    rw [processed_setQueue, hqueued, ← Multiset.coe_add, h.ledger, Multiset.coe_singleton]
    abel
  · refine imp_congr_right fun hT => ?_
    show (∀ t' ∈ ((s.shared.setQueue q T).queue T').toList, _) ↔ _
    -- if the new request is in this queue, all its workers have exited and the flag is set
    have hearly : T' = T → t.early = false := by
      rintro rfl
      obtain ⟨w, hmem, htype⟩ := h.staffed T'
      have hstate : w.state = .exited := by
        by_contra hne
        exact hT ⟨w, hmem, htype, hne⟩
      simp [ht, h.stopped w hmem hstate]
    constructor
    · exact fun hclean t' ht' => hclean t' ((mem_queue_push hholds (T', t')).mpr (.inl ht'))
    · intro hclean t' ht'
      rcases (mem_queue_push hholds (T', t')).mp ht' with hold | hnew
      · exact hclean t' hold
      · obtain ⟨rfl, rfl⟩ := Prod.mk.inj hnew
        exact hearly rfl

theorem step_ok (h : Accounted s) (hstep : step s a = some s') :
    Accounted s' ∧ (Clean s' ↔ Clean s ∧ CleanExit s a) := by
  cases a with
  | enqueue T request =>
    cases hrun : s.shared.enqueue T request with
    | error e => simp [step, act, hrun, bind, Except.bind, Except.toOption] at hstep
    | ok ws =>
      have hs' : { s with shared := ws } = s' := by
        simpa [step, act, hrun, bind, Except.bind, Except.toOption] using hstep
      subst hs'
      obtain ⟨ha, hc⟩ := enqueue_ok hrun h
      exact ⟨ha, hc.trans (and_iff_left trivial).symm⟩
  | stop =>
    have hs' : { s with shared := { s.shared with stopFlag := true } } = s' :=
      Option.some.inj hstep
    subst hs'
    exact ⟨⟨h.wf, fun _ _ _ => rfl, h.staffed, h.serials, h.ledger⟩,
      show Clean s ↔ Clean s ∧ True from (and_iff_left trivial).symm⟩
  | worker i =>
    obtain ⟨s₁, hturn, ha, hc⟩ := h.turn i
    have hs' : s₁ = s' := by simpa [step, act, hturn, Except.toOption] using hstep
    subst hs'
    exact ⟨ha, hc⟩

/-- A queue that gets a request has a free place, or can be doubled. -/
def Fits (s : ThreadPool ρ) : Action ρ → Prop
  | .enqueue type _ => (s.shared.queue type).Fits
  | _ => True

/-- **A step is possible as long as the queues can grow.** -/
theorem step_total (h : Accounted s) (a : Action ρ) (hf : Fits s a) :
    ∃ s', step s a = some s' ∧ Accounted s' := by
  have hact : ∃ s', act s a = .ok s' := by
    cases a with
    | enqueue T request =>
      obtain ⟨q, hq, -⟩ := RequestQueue.enqueue_spec (h.wf T)
        { serial := s.shared.enqueued.length, request := request, early := !s.shared.stopFlag } hf
      exact ⟨_, by simp [act, WorkerThreads.enqueue, hq, bind, Except.bind]; rfl⟩
    | stop => exact ⟨_, rfl⟩
    | worker i =>
      obtain ⟨s', hturn, -⟩ := h.turn i
      exact ⟨s', hturn⟩
  obtain ⟨s', hs'⟩ := hact
  have hstep : step s a = some s' := by rw [step, hs']; rfl
  exact ⟨s', hstep, (step_ok h hstep).1⟩

/-! ## The graceful stop -/

/-- All workers have exited. -/
def AllExited (s : ThreadPool ρ) : Prop := ∀ w ∈ s.locals, w.state = .exited

/--
The promise of `graceful_stop`.

Every request that was enqueued before `stop_flag` was set has been processed exactly once,
by the function for its type.
-/
def Drained (s : ThreadPool ρ) : Prop :=
  ∀ p ∈ s.shared.enqueued, p.2.early = true →
    s.shared.processed.filter (fun r => r.2.serial = p.2.serial) = [p]

instance [DecidableEq ρ] (s : ThreadPool ρ) : Decidable (AllExited s) :=
  inferInstanceAs (Decidable (∀ w ∈ s.locals, _))

instance [DecidableEq ρ] (s : ThreadPool ρ) : Decidable (Drained s) :=
  inferInstanceAs (Decidable (∀ p ∈ s.shared.enqueued, _ → _))

/-- One element of a list is the only one with its key. -/
theorem filter_key {α : Type} (key : α → Nat) : ∀ {l : List α} {x : α}, (l.map key).Nodup → x ∈ l →
    l.filter (fun y => key y = key x) = [x] := by
  intro l
  induction l with
  | nil => intro x _ hx; cases hx
  | cons y l ih =>
    intro x hn hx
    rw [List.map_cons, List.nodup_cons] at hn
    rcases List.mem_cons.mp hx with rfl | hx
    · rw [List.filter_cons_of_pos (by simp), List.filter_eq_nil_iff.mpr]
      intro z hz hkey
      exact hn.1 (List.mem_map.mpr ⟨z, hz, by simpa using hkey⟩)
    · have hne : key y ≠ key x := fun he => hn.1 (he ▸ List.mem_map_of_mem hx)
      rw [List.filter_cons_of_neg (by simpa using hne)]
      exact ih hn.2 hx

/-- When all workers have exited, each request is processed or queued. -/
theorem Accounted.ledger_exited (h : Accounted s) (hexit : AllExited s) :
    (s.shared.enqueued : Multiset (RequestType × Ticket ρ))
      = s.shared.processed + s.shared.queued := by
  have hheld : (s.locals.map Worker.held).sum = 0 := by
    refine List.sum_eq_zero fun x hx => ?_
    obtain ⟨w, hw, rfl⟩ := List.mem_map.mp hx
    simp [Worker.held, hexit w hw]
  rw [h.ledger, hheld, add_zero]

/-- No request is processed and still in a queue, and none is processed twice. -/
theorem Accounted.serials_disjoint (h : Accounted s) :
    (s.shared.processed.map (·.2.serial)).Nodup ∧
      ∀ p ∈ s.shared.processed, ∀ r ∈ s.shared.queued, p.2.serial ≠ r.2.serial := by
  have hmap := congrArg (Multiset.map (·.2.serial)) h.ledger
  rw [Multiset.map_add, Multiset.map_add, Multiset.map_coe, Multiset.map_coe, h.serials] at hmap
  have hnodup : (↑(List.range s.shared.enqueued.length) : Multiset Nat).Nodup :=
    Multiset.coe_nodup.mpr List.nodup_range
  rw [hmap, Multiset.nodup_add, Multiset.nodup_add] at hnodup
  obtain ⟨⟨hprocessed, -⟩, -, hdisjoint⟩ := hnodup
  refine ⟨Multiset.coe_nodup.mp hprocessed, fun p hp r hr he => ?_⟩
  have hp' : p.2.serial ∈ (s.shared.processed.map (·.2.serial)) := List.mem_map_of_mem hp
  have hr' : r.2.serial ∈ s.shared.queued.map (·.2.serial) := Multiset.mem_map_of_mem _ hr
  exact Multiset.disjoint_left.mp hdisjoint (Multiset.mem_add.mpr (.inl hp')) (he ▸ hr')

theorem Accounted.drained_iff_clean (h : Accounted s) (hexit : AllExited s) :
    Drained s ↔ Clean s := by
  obtain ⟨hnodup, hdisjoint⟩ := h.serials_disjoint
  have hmem : ∀ p, p ∈ s.shared.enqueued ↔ p ∈ s.shared.processed ∨ p ∈ s.shared.queued := by
    intro p
    rw [← Multiset.mem_coe, h.ledger_exited hexit, Multiset.mem_add, Multiset.mem_coe]
  constructor
  · intro hd T _ t ht
    have hq : (T, t) ∈ s.shared.queued := mem_queued.mpr ht
    cases hearly : t.early with
    | false => rfl
    | true =>
      -- an early request is processed if all are, and then it is in no queue
      have hfilter := hd (T, t) ((hmem _).mpr (.inr hq)) hearly
      have hp : (T, t) ∈ s.shared.processed :=
        List.mem_of_mem_filter (hfilter ▸ List.mem_singleton_self (T, t))
      exact absurd rfl (hdisjoint _ hp _ hq)
  · intro hc p hp hearly
    rcases (hmem p).mp hp with hp' | hq
    · exact filter_key (·.2.serial) hnodup hp'
    -- nobody runs any more, so what is left in a queue came late
    · have hrun : ¬ Running s.locals p.1 := by
        rintro ⟨w, hw, -, hstate⟩
        exact hstate (hexit w hw)
      have hlate := hc p.1 hrun p.2 (mem_queued.mp hq)
      rw [hearly] at hlate
      cases hlate

theorem accounted_start {threadIds : List Nat} (heven : ∃ n ∈ threadIds, n % 2 = 0)
    (hodd : ∃ n ∈ threadIds, n % 2 = 1) : Accounted (start threadIds : ThreadPool ρ) := by
  have hempty : (RequestQueue.new 1000 : RequestQueue (Ticket ρ)).Holds [] :=
    RequestQueue.holds_new (by decide)
  have hnil := hempty.toList_eq
  have hqueue : ∀ T, ((start threadIds : ThreadPool ρ).shared.queue T) = .new 1000 := by
    intro T
    cases T <;> rfl
  refine ⟨fun T => ?_, ?_, fun T => ?_, rfl, ?_⟩
  · rw [hqueue, hnil]
    exact hempty
  · intro w hw he
    obtain ⟨n, -, rfl⟩ := List.mem_map.mp hw
    cases he
  · cases T with
    | stimulus =>
      obtain ⟨n, hn, h0⟩ := heven
      exact ⟨_, List.mem_map_of_mem hn, if_pos h0⟩
    | correlation =>
      obtain ⟨n, hn, h1⟩ := hodd
      exact ⟨_, List.mem_map_of_mem hn, if_neg (by simp [h1])⟩
  · have hheld : ((start threadIds : ThreadPool ρ).locals.map Worker.held).sum = 0 := by
      refine List.sum_eq_zero fun x hx => ?_
      obtain ⟨w, hw, rfl⟩ := List.mem_map.mp hx
      obtain ⟨n, -, rfl⟩ := List.mem_map.mp hw
      rfl
    have hqueued : (start threadIds : ThreadPool ρ).shared.queued = 0 := by
      simp [queued, entries, hqueue, hnil]
    rw [hheld, hqueued]
    rfl

theorem clean_start (threadIds : List Nat) : Clean (start threadIds : ThreadPool ρ) := by
  have hnil : (RequestQueue.new 1000 : RequestQueue (Ticket ρ)).toList = [] :=
    (RequestQueue.holds_new (by decide)).toList_eq
  intro T _ t ht
  cases T <;> simp [start, queue, hnil] at ht

variable {threadIds : List Nat} {actions : List (Action ρ)}

/-- **Every order of the steps is possible**, as long as the queues can grow. -/
theorem run_possible (heven : ∃ n ∈ threadIds, n % 2 = 0) (hodd : ∃ n ∈ threadIds, n % 2 = 1)
    (hf : AllSteps step Fits (start threadIds) actions) :
    ∃ s, run step (start threadIds) actions = some s ∧ Accounted s :=
  run_total Accounted (fun _ a h hfits => step_total h a hfits) actions _ hf
    (accounted_start heven hodd)

/--
**The graceful stop drains the queues exactly if no last worker exits with early requests
in its queue.**
-/
theorem drained_iff (heven : ∃ n ∈ threadIds, n % 2 = 0) (hodd : ∃ n ∈ threadIds, n % 2 = 1)
    (hrun : run step (start threadIds) actions = some s) (hexit : AllExited s) :
    Drained s ↔ AllSteps step CleanExit (start threadIds) actions := by
  have hstep : ∀ (s : ThreadPool ρ) a s', Accounted s → step s a = some s' →
      Accounted s' ∧ (Clean s' ↔ Clean s ∧ CleanExit s a) := fun _ _ _ h hs => step_ok h hs
  obtain ⟨hs, hiff⟩ := allSteps_iff Accounted hstep actions _ s hrun (accounted_start heven hodd)
  rw [hs.drained_iff_clean hexit, hiff]
  exact and_iff_right (clean_start threadIds)

/-- Each worker of a pool, once. -/
def eachWorker (threadsCount : Nat) : List (Action ρ) := (List.range threadsCount).map .worker

/-- A request that is processed before the stop, and one that the last worker still finds. -/
theorem drained_iff_two :
    ∃ s, run step (start [0, 1] : ThreadPool Nat)
        ([.enqueue .stimulus 7, .worker 0, .worker 0, .enqueue .correlation 8, .stop, .worker 0] ++
          [.worker 1, .worker 1, .worker 1] ++ eachWorker 2) = some s ∧ AllExited s ∧
      (Drained s ↔ AllSteps step CleanExit (start [0, 1])
        ([.enqueue .stimulus 7, .worker 0, .worker 0, .enqueue .correlation 8, .stop, .worker 0] ++
          [.worker 1, .worker 1, .worker 1] ++ eachWorker 2)) := by
  have hany : (run step (start [0, 1] : ThreadPool Nat)
      ([.enqueue .stimulus 7, .worker 0, .worker 0, .enqueue .correlation 8, .stop, .worker 0] ++
        [.worker 1, .worker 1, .worker 1] ++ eachWorker 2)).any
      (fun s => decide (AllExited s)) = true := by decide +kernel
  obtain ⟨s, hrun, hexit⟩ := (Option.any_eq_true _ _).mp hany
  have hexit : AllExited s := of_decide_eq_true hexit
  exact ⟨s, hrun, hexit, drained_iff (by decide) (by decide) hrun hexit⟩

/--
A request that nobody processes.

All ten workers get NULL and sleep. Then a stimulus comes in, the flag is set, and all workers
exit.
-/
theorem request_lost :
    (run step (start (List.range 10) : ThreadPool Nat)
        (eachWorker 10 ++ [.enqueue .stimulus 7, .stop] ++ eachWorker 10)).map
      (fun s => (decide (AllExited s), decide (Drained s), s.shared.processed))
      = some (true, false, []) := by
  decide +kernel

end ThreadPool

end AttentionBroker
