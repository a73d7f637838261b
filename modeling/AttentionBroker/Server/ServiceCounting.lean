import AttentionBroker.Server.CorrelationService

/-!
# The server counts every correlation request

`Serving` says what holds in every state of the service. A network lacks what is queued for its
context and what the workers have still to add for it. So when the requests of a context are
processed, its network has the counts of all calls for that context, and the calls for other
contexts do not matter.
-/

namespace AttentionBroker

open Infra

namespace CorrelationService

open AttentionBrokerServer (canonical)

variable {s s' : CorrelationService} {t t' : WorkerThread} {sh : ServerMemory} {i : Nat}
  {context : String}

/-- The lists that the queue still has for a context. -/
def queuedFor (s : CorrelationService) (context : String) : List (List Key) :=
  (s.shared.server.workerThreads.queue .correlation).toList.flatMap (Ticket.listsFor context)

/-- The lists that were enqueued for a context. -/
def acceptedFor (s : CorrelationService) (context : String) : List (List Key) :=
  s.shared.server.workerThreads.enqueued.flatMap fun r => r.2.listsFor context

/-- What is still to do for a context. -/
def outstanding (s : CorrelationService) (context : String) : List CorrelationWorker :=
  .start (s.queuedFor context) :: s.locals.map (WorkerThread.updaterFor context)

/-- A request that was enqueued points to the network of its context. -/
structure Routed (map : NetworkMap) (r : RequestType × Ticket Message) : Prop where
  type : r.1 = .correlation
  pointer : map.lookup (canonical r.2.request.context) = some r.2.request.hebbianNetwork
  handles : ∀ l ∈ r.2.request.request.handleLists, ∀ k ∈ l, IsHandle k

/-- The graph of a context after the requests that were enqueued for it. -/
def target (s : CorrelationService) (context : String) : Graph Key :=
  ((s.acceptedFor context).map .correlation).foldl Graph.process HebbianNetwork.new.graph

/-- What every state satisfies. A network lacks what is still to do for its context. -/
structure Serving (s : CorrelationService) : Prop where
  pool : s.pool.Accounted
  mapped : s.shared.server.Mapped
  routed : ∀ r ∈ s.shared.server.workerThreads.enqueued, Routed s.shared.server.hebbianNetwork r
  place : ∀ t ∈ s.locals, t.InPlace s.shared.server.network
  lock : ∀ a, (s.locals.map fun t => (t.holdsAt a).toNat).sum = (s.shared.locked a).toNat
  wf : ∀ context, (s.shared.server.network context).Wf
  owes : ∀ context, (s.shared.server.network context).graph.Owes (s.target context)
    ((s.outstanding context).flatMap CorrelationWorker.nodesToAdd)
    ((s.outstanding context).flatMap CorrelationWorker.pairsToAdd)

namespace Serving

theorem get_pool (ht : s.locals[i]? = some t) : s.pool.locals[i]? = some t.worker := by
  show (s.locals.map WorkerThread.worker)[i]? = _
  rw [List.getElem?_map, ht]
  rfl

/-- The worker has the request that it processes. -/
theorem held_of_ticket (ht : t ∈ s.locals) {ticket : Ticket Message}
    (hticket : t.ticket = some ticket) :
    ∃ T, (T, ticket) ∈ (s.pool.locals.map Worker.held).sum := by
  unfold WorkerThread.ticket at hticket
  split at hticket
  · next T ticket' hstate =>
    obtain rfl := Option.some.inj hticket
    obtain ⟨i, hi⟩ := List.mem_iff_getElem?.mp ht
    refine ⟨T, ?_⟩
    rw [Parties.sum_locals _ (get_pool hi), Worker.held, hstate, Multiset.mem_add]
    exact .inl (Multiset.mem_singleton_self _)
  · cases hticket

/-- What a worker or a queue has was enqueued. -/
theorem mem_enqueued (h : Serving s) {r : RequestType × Ticket Message}
    (hr : r ∈ (s.pool.locals.map Worker.held).sum ∨ r ∈ s.pool.shared.queued) :
    r ∈ s.shared.server.workerThreads.enqueued := by
  rw [← Multiset.mem_coe]
  show _ ∈ (s.pool.shared.enqueued : Multiset (RequestType × Ticket Message))
  rw [h.pool.ledger, Multiset.mem_add, Multiset.mem_add]
  exact hr.imp_left .inr

theorem enqueued_of_ticket (h : Serving s) (ht : t ∈ s.locals) {ticket : Ticket Message}
    (hticket : t.ticket = some ticket) :
    ∃ T, (T, ticket) ∈ s.shared.server.workerThreads.enqueued := by
  obtain ⟨T, hheld⟩ := held_of_ticket ht hticket
  exact ⟨T, h.mem_enqueued (.inl hheld)⟩

theorem enqueued_of_queued (h : Serving s) {T : RequestType} {ticket : Ticket Message}
    (hq : ticket ∈ (s.shared.server.workerThreads.queue T).toList) :
    (T, ticket) ∈ s.shared.server.workerThreads.enqueued :=
  h.mem_enqueued (.inr (WorkerThreads.mem_queued.mpr hq))

/-- The network that a worker works on is that of the context of its request. -/
theorem network_of_pointer (h : Serving s) (ht : t ∈ s.locals) {a : Nat}
    (ha : t.pointer = some a) : ∃ ticket, t.ticket = some ticket ∧
      s.shared.server.hebbianNetwork.lookup (canonical ticket.request.context) = some (some a) ∧
      s.shared.server.network ticket.request.context = (s.shared.network a).net := by
  obtain ⟨ticket, hticket, hpointer⟩ := WorkerThread.pointer_eq_some ha
  obtain ⟨T, hmem⟩ := h.enqueued_of_ticket ht hticket
  have hkey := (h.routed _ hmem).pointer
  rw [hpointer] at hkey
  exact ⟨ticket, hticket, hkey, AttentionBrokerServer.network_of_lookup hkey⟩

theorem outcome (h : Serving s) (ht : s.locals[i]? = some t) :
    t.Outcome s.shared (t.advance s.shared) := by
  refine WorkerThread.outcome h.pool.wf fun a hn => ?_
  have hmem := Parties.mem_of_get ht
  obtain ⟨-, hpointer⟩ := WorkerThread.network_eq_some hn
  obtain ⟨ticket, hticket, -, hnet⟩ := h.network_of_pointer hmem hpointer
  rw [← hnet]
  refine ⟨h.wf _, (h.place t hmem).busy ticket hticket, fun hholds => ?_⟩
  exact Parties.locked_of_holds (h.lock a) ht
    (by rw [WorkerThread.holdsAt, decide_eq_true hpointer, hholds]; rfl)

/-! ## Calls -/

/-- New lists at the end of the queue are still to do. -/
theorem outstanding_push {s₁ : CorrelationService} {ls : List (List Key)}
    (hq : s₁.queuedFor context = s.queuedFor context ++ ls) (hl : s₁.locals = s.locals)
    {α : Type} (f : CorrelationWorker → List α)
    (hf : ∀ ls ls', f (.start (ls ++ ls')) = f (.start ls) ++ f (.start ls')) :
    ((s.outstanding context).flatMap f ++ f (.start ls)).Perm
      ((s₁.outstanding context).flatMap f) := by
  rw [outstanding, outstanding, hq, hl, List.flatMap_cons, List.flatMap_cons, hf, List.append_assoc,
    List.append_assoc]
  exact List.perm_append_comm.append_left _

/-- **A call adds its list to what is still to do for its context.** -/
theorem submit (h : Serving s) {l : List Key} {c : String} {server : AttentionBrokerServer}
    (hl : ∀ k ∈ l, IsHandle k)
    (hrun : s.shared.server.submit
      { request := .correlation l, context := c, hebbianNetwork := none } = .ok server) :
    Serving { s with shared := { s.shared with server := server } } := by
  rcases AttentionBrokerServer.submit_ok hrun with ⟨-, rfl⟩ | ⟨-, ws, henqueue, rfl⟩
  · exact h
  · have hsel := h.mapped.select c
    obtain ⟨hpool, -⟩ := ThreadPool.enqueue_ok (s := s.pool) henqueue h.pool
    obtain ⟨q, ticket, hq, hticket, rfl⟩ := WorkerThreads.enqueue_eq h.pool.wf henqueue
    have hcontext : ticket.request.context = c := by rw [hticket]
    have hplace : ∀ t ∈ s.locals,
        t.InPlace (s.shared.server.selectHebbianNetwork c).2.network := by
      rw [funext hsel.network]
      exact h.place
    refine
      { pool := hpool
        mapped := hsel.mapped.withWorkerThreads _
        routed := List.forall_mem_append.mpr ⟨fun r hr => ?_, List.forall_mem_singleton.mpr ?_⟩
        place := hplace
        lock := h.lock
        wf := fun context => by
          show ((s.shared.server.selectHebbianNetwork c).2.network context).Wf
          rw [hsel.network]
          exact h.wf context
        owes := fun context => ?_ }
    · have hr' := h.routed r hr
      exact ⟨hr'.type, hsel.kept _ _ hr'.pointer, hr'.handles⟩
    · refine ⟨rfl, ?_, ?_⟩
      · rw [hcontext, hticket]
        exact hsel.selected
      · rw [hticket]
        exact List.forall_mem_singleton.mpr hl
    · let s₁ : CorrelationService := { s with shared := { s.shared with
        server := { (s.shared.server.selectHebbianNetwork c).2 with
          workerThreads := { s.shared.server.workerThreads.setQueue q .correlation with
            enqueued := s.shared.server.workerThreads.enqueued ++ [(.correlation, ticket)] } } } }
      have hqueued : s₁.queuedFor context = s.queuedFor context ++ ticket.listsFor context := by
        show q.toList.flatMap _ = _
        rw [hq.toList_eq, List.flatMap_append, List.flatMap_singleton]
        rfl
      have haccepted : s₁.acceptedFor context
          = s.acceptedFor context ++ ticket.listsFor context := by
        show (s.shared.server.workerThreads.enqueued ++ [(RequestType.correlation, ticket)]).flatMap
          _ = _
        rw [List.flatMap_append, List.flatMap_singleton]
        rfl
      have htarget : s₁.target context
          = ((ticket.listsFor context).map Request.correlation).foldl Graph.process
              (s.target context) := by
        rw [target, haccepted, List.map_append, List.foldl_append]
        rfl
      have howes := (h.owes context).trans (.correlations (ticket.listsFor context) _)
      show ((s.shared.server.selectHebbianNetwork c).2.network context).graph.Owes
        (s₁.target context) ((s₁.outstanding context).flatMap _)
        ((s₁.outstanding context).flatMap _)
      rw [hsel.network, htarget]
      exact howes.perm (outstanding_push hqueued rfl _ CorrelationWorker.nodesToAdd_append)
        (outstanding_push hqueued rfl _ CorrelationWorker.pairsToAdd_append)

/-! ## Turns -/

theorem outstanding_get (ht : s.locals[i]? = some t) {α : Type} (f : CorrelationWorker → List α) :
    ((s.outstanding context).flatMap f).Perm (f (.start (s.queuedFor context)) ++
      (f (t.updaterFor context) ++ (s.others i).flatMap fun x => f (x.updaterFor context))) := by
  simp only [outstanding, List.flatMap_cons, List.flatMap_map]
  exact ((Parties.perm_others ht).flatMap_right _).append_left _

/-- What a thread does after its turn takes the place of what it did before. -/
theorem outstanding_set (ht : s.locals[i]? = some t) (hs' : s'.locals = s.locals.set i t')
    {α : Type} (f : CorrelationWorker → List α) :
    ((s'.outstanding context).flatMap f).Perm (f (.start (s'.queuedFor context)) ++
      (f (t'.updaterFor context) ++ (s.others i).flatMap fun x => f (x.updaterFor context))) := by
  simp only [outstanding, List.flatMap_cons, List.flatMap_map, hs']
  exact ((Parties.set_perm_others ht t').flatMap_right _).append_left _

/-- A worker that does not work on a network has nothing to add. -/
theorem finished_of_network (h : Serving s) (ht : t ∈ s.locals) (hn : t.network = none) :
    t.updater.Finished := by
  unfold WorkerThread.network at hn
  split at hn
  · next hf => exact hf
  · cases hticket : t.ticket with
    | none =>
      rw [(h.place t ht).idle hticket]
      exact ⟨rfl, rfl, rfl⟩
    | some ticket =>
      obtain ⟨T, hmem⟩ := h.enqueued_of_ticket ht hticket
      obtain ⟨a, -, ha⟩ := h.mapped.allocated _ _ (h.routed _ hmem).pointer
      change ticket.request.hebbianNetwork = some a at ha
      simp [WorkerThread.pointer, hticket, ha] at hn

/-- What a worker takes from a queue is what it has to add then. -/
theorem outstanding_moves (h : Serving s) (ht : t ∈ s.locals) (hn : t.network = none)
    {ws : WorkerThreads Message} {state : WorkerState Message}
    (hm : t.worker.Moves s.shared.server.workerThreads ws state)
    (hs' : s'.shared.server.workerThreads = ws) {α : Type} (f : CorrelationWorker → List α)
    (hf : ∀ ls ls', f (.start (ls ++ ls')) = f (.start ls) ++ f (.start ls'))
    (hnil : ∀ w : CorrelationWorker, w.Finished → f w = []) (context : String) :
    (f (.start (s.queuedFor context)) ++ f (t.updaterFor context)).Perm
      (f (.start (s'.queuedFor context)) ++ f (WorkerThread.updaterFor context
        { worker := { t.worker with state := state }, updater := state.updater })) := by
  have hbefore : f (t.updaterFor context) = [] :=
    hnil _ (WorkerThread.updaterFor_finished (h.finished_of_network ht hn))
  have hnone : f (.start []) = [] := hnil _ ⟨rfl, rfl, rfl⟩
  rw [hbefore, List.append_nil]
  cases hm with
  | take hw hl hq =>
    have hT : t.worker.type = .correlation :=
      (h.routed _ (h.enqueued_of_queued (hl ▸ List.mem_cons_self))).type
    rw [hT] at hl hs'
    rw [WorkerThread.updaterFor_take rfl, queuedFor, hl, List.flatMap_cons, hf, queuedFor, hs',
      WorkerThreads.queue_setQueue_self, hq.toList_eq]
    exact List.perm_append_comm
  | process =>
    rw [WorkerThread.updaterFor_idle (by simp), hnone, List.append_nil, queuedFor, queuedFor, hs']
    exact .refl _
  | sleep | wake | exit | stay =>
    rw [WorkerThread.updaterFor_idle (by simp), hnone, List.append_nil, queuedFor, queuedFor, hs']

/-- **A turn in which a worker takes a request, notes that one is processed, or sleeps.** -/
theorem turn_worker (h : Serving s) (ht : s.locals[i]? = some t) (hn : t.network = none)
    {ws : WorkerThreads Message} {state : WorkerState Message}
    (hm : t.worker.Moves s.shared.server.workerThreads ws state) :
    Serving
      { shared := s.shared.setWorkerThreads ws
        locals := s.locals.set i
          { worker := { t.worker with state := state }, updater := state.updater } } := by
  have hmem := Parties.mem_of_get ht
  have hfinished := h.finished_of_network hmem hn
  obtain ⟨henqueued, -⟩ := ThreadPool.moves_ledger (s := s.pool) hm
  let t₁ : WorkerThread :=
    { worker := { t.worker with state := state }, updater := state.updater }
  have hplace : t₁.InPlace s.shared.server.network := by
    refine ⟨fun hnone => ?_, fun ticket hsome => ?_⟩
    · cases state with
      | processing => cases hnone
      | selecting | sleeping | exited => rfl
    · cases hm with
      | take hw hl hq =>
        obtain rfl := Option.some.inj hsome
        have hr := h.routed _ (h.enqueued_of_queued (hl ▸ List.mem_cons_self))
        exact ⟨hr.handles, nofun, trivial, nofun, nofun⟩
      | sleep | process | wake | exit | stay => cases hsome
  refine
    { pool := ?_
      mapped := h.mapped.withWorkerThreads _
      routed := ?_
      place := Parties.forall_set h.place hplace
      lock := fun a => ?_
      wf := h.wf
      owes := fun context => ?_ }
  · have hset := h.pool.move (get_pool ht) hm
    rw [CorrelationService.pool, List.map_set]
    exact hset
  · show ∀ r ∈ ws.enqueued, _
    rw [henqueued]
    exact h.routed
  · have hlock := h.lock a
    have hold : t.holdsAt a = false := by rw [WorkerThread.holdsAt, hfinished.holds, Bool.and_false]
    have hnew : t₁.holdsAt a = false := by
      have hfree : t₁.updater.holds = false := by
        cases state <;> exact CorrelationWorker.holds_start _
      rw [WorkerThread.holdsAt, hfree, Bool.and_false]
    rw [Parties.sum_locals _ ht, hold] at hlock
    rw [Parties.sum_set_others _ ht, hnew]
    exact hlock
  · let s₁ : CorrelationService :=
      { shared := s.shared.setWorkerThreads ws, locals := s.locals.set i t₁ }
    have htarget : s₁.target context = s.target context := by
      rw [target, target, acceptedFor, acceptedFor]
      show ((ws.enqueued.flatMap _).map _).foldl _ _ = _
      rw [henqueued]
      rfl
    have hmoves : ∀ {α : Type} (f : CorrelationWorker → List α),
        (∀ ls ls', f (.start (ls ++ ls')) = f (.start ls) ++ f (.start ls')) →
        (∀ w : CorrelationWorker, w.Finished → f w = []) →
        ((s.outstanding context).flatMap f).Perm ((s₁.outstanding context).flatMap f) := by
      intro α f hf hnil
      refine (outstanding_get ht f).trans (.trans ?_ (outstanding_set ht rfl f).symm)
      rw [← List.append_assoc, ← List.append_assoc]
      exact (h.outstanding_moves hmem hn hm rfl f hf hnil context).append_right _
    show (s.shared.server.network context).graph.Owes (s₁.target context)
      ((s₁.outstanding context).flatMap _) ((s₁.outstanding context).flatMap _)
    rw [htarget]
    exact (h.owes context).perm
      (hmoves _ CorrelationWorker.nodesToAdd_append fun w hw => hw.toAdd.1)
      (hmoves _ CorrelationWorker.pairsToAdd_append fun w hw => hw.toAdd.2)

section updater

variable {a : Nat} {n : SharedNetwork} {updater : CorrelationWorker} {ticket : Ticket Message}

/-- A step of an updater is on the network of the context of its request, and on no other one. -/
theorem network_updater (h : Serving s) (hkey : s.shared.server.hebbianNetwork.lookup
      (canonical ticket.request.context) = some (some a)) (context : String) :
    (s.shared.setNetwork a n).server.network context
      = if canonical ticket.request.context = canonical context then n.net
        else s.shared.server.network context := h.mapped.network_set hkey context

theorem network_eq (hkey : s.shared.server.hebbianNetwork.lookup
      (canonical ticket.request.context) = some (some a))
    (hc : canonical ticket.request.context = canonical context) :
    s.shared.server.network context = (s.shared.network a).net := by
  rw [hc] at hkey
  exact AttentionBrokerServer.network_of_lookup hkey

/-- A step of an updater concerns neither the queues nor what the workers have taken. -/
theorem pool_updater (ht : s.locals[i]? = some t) :
    CorrelationService.pool
      { shared := s.shared.setNetwork a n
        locals := s.locals.set i { t with updater := updater } } = s.pool := by
  obtain ⟨hi, he⟩ := List.getElem?_eq_some_iff.mp (get_pool ht)
  have hset : s.pool.locals.set i t.worker = s.pool.locals := by
    rw [← he]
    exact List.set_getElem_self hi
  show ({ shared := _, locals := (s.locals.set i _).map WorkerThread.worker } :
    ThreadPool Message) = s.pool
  rw [List.map_set]
  exact congrArg (Parties.mk s.pool.shared) hset

/-- The other updaters rely on what only grows. -/
theorem place_updater (h : Serving s) (ht : s.locals[i]? = some t) (hticket : t.ticket = some ticket)
    (hkey : s.shared.server.hebbianNetwork.lookup (canonical ticket.request.context)
      = some (some a))
    (hgrows : HebbianNetwork.Grows (s.shared.network a).net n.net) (hplace : updater.InPlace n.net) :
    ∀ x ∈ s.locals.set i { t with updater := updater },
      x.InPlace (s.shared.setNetwork a n).server.network := by
  obtain ⟨-, hothers⟩ := (Parties.forall_locals ht).mp h.place
  refine (Parties.forall_set_others ht _).mpr ⟨⟨fun hnone => ?_, fun ticket' h' => ?_⟩,
    fun x hx => ⟨(hothers x hx).idle, fun ticket' h' => ?_⟩⟩
  · cases hticket.symm.trans hnone
  · obtain rfl := Option.some.inj (hticket.symm.trans h')
    rw [h.network_updater hkey, if_pos rfl]
    exact hplace
  · have hx' := (hothers x hx).busy ticket' h'
    rw [h.network_updater hkey]
    split
    · next hc =>
      rw [network_eq hkey hc] at hx'
      exact hx'.grows hgrows
    · exact hx'

/-- The updater has the mutex of its own network at most. -/
theorem lock_updater (h : Serving s) (ht : s.locals[i]? = some t) (hpointer : t.pointer = some a)
    (hlock : n.locked.toNat + t.updater.holds.toNat
      = (s.shared.network a).locked.toNat + updater.holds.toNat) (b : Nat) :
    ((s.locals.set i { t with updater := updater }).map fun t => (t.holdsAt b).toNat).sum
      = ((s.shared.setNetwork a n).locked b).toNat := by
  have hsum := h.lock b
  rw [Parties.sum_locals _ ht] at hsum
  show _ = (Function.update s.shared.locked a n.locked b).toNat
  rw [Parties.sum_set_others _ ht]
  by_cases hb : b = a
  · subst hb
    rw [Function.update_self]
    have hp : ∀ u, WorkerThread.holdsAt b { t with updater := u } = u.holds := fun u => by
      rw [WorkerThread.holdsAt]
      exact (congrArg (· && u.holds) (decide_eq_true hpointer)).trans (Bool.true_and _)
    rw [hp]
    rw [show t.holdsAt b = t.updater.holds from hp t.updater] at hsum
    change n.locked.toNat + _ = (s.shared.locked b).toNat + _ at hlock
    omega
  · rw [Function.update_of_ne hb]
    have hp : ∀ u, WorkerThread.holdsAt b { t with updater := u } = false := fun u => by
      have hne : t.pointer ≠ some b := by
        rw [hpointer]
        exact fun he => hb (Option.some.inj he).symm
      exact (congrArg (· && u.holds) (decide_eq_false hne)).trans (Bool.false_and _)
    rw [hp]
    rw [show t.holdsAt b = false from hp t.updater] at hsum
    exact hsum

/-- What the updater adds to its network, it has no more to do. -/
theorem owes_updater (h : Serving s) (ht : s.locals[i]? = some t) (hticket : t.ticket = some ticket)
    (hkey : s.shared.server.hebbianNetwork.lookup (canonical ticket.request.context)
      = some (some a)) (wf' : n.net.Wf) {ns : List Key} {ps : List (Key × Key)}
    (hadds : HebbianNetwork.Adds (s.shared.network a).net n.net ns ps)
    (hns : t.updater.nodesToAdd = ns ++ updater.nodesToAdd)
    (hps : t.updater.pairsToAdd = ps ++ updater.pairsToAdd) (context : String) :
    let s₁ : CorrelationService :=
      { shared := s.shared.setNetwork a n, locals := s.locals.set i { t with updater := updater } }
    (s₁.shared.server.network context).graph.Owes (s₁.target context)
      ((s₁.outstanding context).flatMap CorrelationWorker.nodesToAdd)
      ((s₁.outstanding context).flatMap CorrelationWorker.pairsToAdd) := by
  intro s₁
  show (s₁.shared.server.network context).graph.Owes (s.target context)
    ((s₁.outstanding context).flatMap _) ((s₁.outstanding context).flatMap _)
  have howes := (h.owes context).perm (outstanding_get ht _) (outstanding_get ht _)
  have hlocals : s₁.locals = s.locals.set i { t with updater := updater } := rfl
  refine Graph.Owes.perm ?_ (outstanding_set ht hlocals _).symm
    (outstanding_set ht hlocals _).symm
  have hqueued : s₁.queuedFor context = s.queuedFor context := rfl
  have hfor : ∀ u, WorkerThread.isFor context { t with updater := u }
      = decide (canonical ticket.request.context = canonical context) := fun u => by
    show t.ticket.any _ = _
    rw [hticket]
    rfl
  have hfor' := hfor t.updater
  change t.isFor context = _ at hfor'
  rw [h.network_updater hkey, hqueued, WorkerThread.updaterFor, hfor]
  rw [WorkerThread.updaterFor, hfor'] at howes
  by_cases hc : canonical ticket.request.context = canonical context
  · simp only [hc, decide_true, if_true] at howes ⊢
    rw [network_eq hkey hc, hns, hps, List.append_assoc, List.append_assoc] at howes
    have hwf := h.wf context
    rw [network_eq hkey hc] at hwf
    refine hadds.owes hwf wf' (howes.perm ?_ ?_)
    · exact List.perm_append_comm_assoc _ _ _
    · exact List.perm_append_comm_assoc _ _ _
  · simp only [hc, decide_false, if_false] at howes ⊢
    exact howes

/-- **A turn in which an updater makes a step on the network of its request.** -/
theorem turn_updater (h : Serving s) (ht : s.locals[i]? = some t) (hn : t.network = some a)
    (hs : t.updater.Steps (s.shared.network a) n updater) :
    Serving
      { shared := s.shared.setNetwork a n
        locals := s.locals.set i { t with updater := updater } } := by
  have hmem := Parties.mem_of_get ht
  obtain ⟨-, hpointer⟩ := WorkerThread.network_eq_some hn
  obtain ⟨ticket, hticket, hkey, -⟩ := h.network_of_pointer hmem hpointer
  obtain ⟨wf', -, -, ⟨ns, ps, hadds, hns, hps⟩, hplace, hlock, -⟩ := hs
  refine
    { pool := ?_
      mapped := ⟨h.mapped.global, h.mapped.allocated, h.mapped.distinct⟩
      routed := fun r hr => ⟨(h.routed r hr).type, (h.routed r hr).pointer, (h.routed r hr).handles⟩
      place := h.place_updater ht hticket hkey hadds.grows hplace
      lock := h.lock_updater ht hpointer hlock
      wf := fun context => ?_
      owes := h.owes_updater ht hticket hkey wf' hadds hns hps }
  · rw [pool_updater ht]
    exact h.pool
  · show ((s.shared.setNetwork a n).server.network context).Wf
    rw [h.network_updater hkey]
    split
    · exact wf'
    · exact h.wf context

end updater

/-! ## Steps -/

/-- The next turn of a thread is possible, or the thread waits for a mutex. -/
theorem turn_cases (h : Serving s) (ht : s.locals[i]? = some t) :
    (∃ sh t', t.advance s.shared = .ok (sh, t') ∧ t.Moves s.shared sh t') ∨
    t.advance s.shared = .error .waits ∧
      ∃ a, t.network = some a ∧ s.shared.locked a = true ∧ t.updater.holds = false := by
  have hout := h.outcome ht
  match hadv : t.advance s.shared with
  | .ok (sh, t') =>
    rw [hadv] at hout
    exact .inl ⟨sh, t', rfl, hout⟩
  | .error e =>
    rw [hadv] at hout
    cases e with
    | waits => exact .inr ⟨rfl, hout⟩
    | returned | fault => exact hout.elim

/-- What a step of the service is. -/
theorem step_cases (h : Serving s) {a : Action} (hstep : CorrelationService.step s a = some s') :
    (∃ l c server, a = .correlate l c ∧ s.shared.server.submit
        { request := .correlation l, context := c, hebbianNetwork := none } = .ok server ∧
        s' = { s with shared := { s.shared with server := server } }) ∨
    (a = .stop ∧ s' = { s with
      shared := s.shared.setWorkerThreads
        { s.shared.server.workerThreads with stopFlag := true } }) ∨
    (∃ i, a = .thread i ∧ s' = s) ∨
    ∃ i t sh t', a = .thread i ∧ s.locals[i]? = some t ∧ t.Moves s.shared sh t' ∧
      s' = { shared := sh, locals := s.locals.set i t' } := by
  cases a with
  | correlate l c =>
    have hsub := AttentionBrokerServer.correlate_state l c s.shared.server
    cases hrun : s.shared.server.correlate l c with
    | error e => simp [CorrelationService.step, act, hrun, Except.mapError, bind, Except.bind,
        Except.toOption] at hstep
    | ok r =>
      rw [hrun] at hsub
      have hs' : { s with shared := { s.shared with server := r.2 } } = s' := by
        simpa [CorrelationService.step, act, hrun, Except.mapError, bind, Except.bind,
          Except.toOption] using hstep
      exact .inl ⟨l, c, r.2, rfl, hsub.symm, hs'.symm⟩
  | stop => exact .inr (.inl ⟨rfl, (Option.some.inj hstep).symm⟩)
  | thread i =>
    refine .inr (.inr ?_)
    cases ht : s.locals[i]? with
    | none =>
      have hs' : s = s' := by
        simpa [CorrelationService.step, act, Parties.turn_none ht, Except.toOption] using hstep
      exact .inl ⟨i, rfl, hs'.symm⟩
    | some t =>
      rcases h.turn_cases ht with ⟨sh, t', hadv, hmoves⟩ | ⟨hadv, -⟩
      · have hs' : { shared := sh, locals := s.locals.set i t' } = s' := by
          simpa [CorrelationService.step, act, Parties.turn_ok ht hadv, Except.toOption] using hstep
        exact .inr ⟨i, t, sh, t', rfl, ht, hmoves, hs'.symm⟩
      · simp [CorrelationService.step, act, Parties.turn_error ht hadv, Except.toOption] at hstep

theorem turn (h : Serving s) (ht : s.locals[i]? = some t) (hm : t.Moves s.shared sh t') :
    Serving { shared := sh, locals := s.locals.set i t' } := by
  cases hm with
  | worker hn hm => exact h.turn_worker ht hn hm
  | updater hn hs => exact h.turn_updater ht hn hs

/-- The lists of a call are handles. -/
def Hashed : Action → Prop
  | .correlate handleList _ => ∀ k ∈ handleList, IsHandle k
  | _ => True

/-- **Every step keeps it that a network lacks what is still to do for its context.** -/
theorem step (h : Serving s) {a : Action} (ha : Hashed a)
    (hstep : CorrelationService.step s a = some s') : Serving s' := by
  obtain ⟨l, c, server, rfl, hrun, rfl⟩ | ⟨rfl, rfl⟩ | ⟨i, rfl, rfl⟩ |
    ⟨i, t, sh, t', rfl, ht, hm, rfl⟩ := h.step_cases hstep
  · exact h.submit ha hrun
  · have hpool := (ThreadPool.step_ok (a := .stop) h.pool rfl).1
    exact
      { pool := hpool
        mapped := h.mapped.withWorkerThreads _
        routed := h.routed
        place := h.place
        lock := h.lock
        wf := h.wf
        owes := h.owes }
  · exact h
  · exact h.turn ht hm

theorem network_new (context : String) : AttentionBrokerServer.new.network context = .new :=
  (Option.some.inj (AttentionBrokerServer.routed_new.history context)).symm

theorem start : Serving start where
  pool := by
    have hpool : CorrelationService.start.pool = AttentionBrokerServer.newWorkerThreads := rfl
    rw [hpool]
    exact ThreadPool.accounted_start ⟨0, by decide, rfl⟩ ⟨1, by decide, rfl⟩
  mapped := AttentionBrokerServer.routed_new.mapped
  routed := by
    intro r hr
    cases hr
  place := by
    intro t ht
    obtain ⟨w, hw, rfl⟩ := List.mem_map.mp ht
    obtain ⟨n, -, rfl⟩ := List.mem_map.mp hw
    exact ⟨fun _ => rfl, fun _ h => by cases h⟩
  lock a := by
    refine List.sum_eq_zero fun n hn => ?_
    obtain ⟨t, ht, rfl⟩ := List.mem_map.mp hn
    obtain ⟨w, -, rfl⟩ := List.mem_map.mp ht
    rw [WorkerThread.holdsAt, CorrelationWorker.holds_start, Bool.and_false]
    rfl
  wf context := by
    show (AttentionBrokerServer.new.network context).Wf
    rw [network_new]
    exact HebbianNetwork.sound_new.wf
  owes context := by
    have hfinished : ∀ w ∈ CorrelationService.start.outstanding context, w.Finished := by
      refine List.forall_mem_cons.mpr ⟨?_, fun w hw => ?_⟩
      · have hqueue : (RequestQueue.new 1000 : RequestQueue (Ticket Message)).toList = [] :=
          (RequestQueue.holds_new (by decide)).toList_eq
        refine ⟨?_, rfl, rfl⟩
        show (RequestQueue.new 1000 : RequestQueue (Ticket Message)).toList.flatMap
          (Ticket.listsFor context) = []
        rw [hqueue]
        rfl
      · obtain ⟨t, ht, rfl⟩ := List.mem_map.mp hw
        obtain ⟨w', -, rfl⟩ := List.mem_map.mp ht
        exact WorkerThread.updaterFor_finished ⟨rfl, rfl, rfl⟩
    show (AttentionBrokerServer.new.network context).graph.Owes HebbianNetwork.new.graph _ _
    rw [network_new, List.flatMap_eq_nil_iff.mpr fun w hw => (hfinished w hw).toAdd.1,
      List.flatMap_eq_nil_iff.mpr fun w hw => (hfinished w hw).toAdd.2]
    exact .refl _

/-! ## What is processed -/

/-- A request is in one place. -/
theorem not_processed (h : Serving s) {r : RequestType × Ticket Message}
    (hr : r ∈ (s.pool.locals.map Worker.held).sum ∨ r ∈ s.pool.shared.queued) :
    r ∉ s.shared.server.workerThreads.processed := by
  have hnodup : (s.pool.shared.enqueued : Multiset (RequestType × Ticket Message)).Nodup := by
    refine Multiset.coe_nodup.mpr (List.Nodup.of_map (·.2.serial) ?_)
    rw [h.pool.serials]
    exact List.nodup_range
  rw [h.pool.ledger, Multiset.nodup_add, Multiset.nodup_add, Multiset.disjoint_left,
    Multiset.disjoint_left] at hnodup
  obtain ⟨⟨-, -, hheld⟩, -, hqueued⟩ := hnodup
  intro hp
  have hp' : r ∈ (s.pool.shared.processed : Multiset (RequestType × Ticket Message)) := hp
  rcases hr with hr | hr
  · exact hheld hp' hr
  · exact hqueued (Multiset.mem_add.mpr (.inl hp')) hr

/-- **A network lacks nothing when the requests of its context are processed.** -/
theorem sameCounts (h : Serving s) (hs : s.Settled context) :
    (s.shared.server.network context).graph.SameCounts (s.target context) := by
  have hfinished : ∀ w ∈ s.outstanding context, w.Finished := by
    refine List.forall_mem_cons.mpr ⟨⟨?_, rfl, rfl⟩, fun w hw => ?_⟩
    · refine List.flatMap_eq_nil_iff.mpr fun ticket hticket => ?_
      have hq : (RequestType.correlation, ticket) ∈ s.pool.shared.queued :=
        WorkerThreads.mem_queued.mpr hticket
      exact if_neg fun hc =>
        h.not_processed (.inr hq) (hs _ (h.enqueued_of_queued hticket) hc)
    · obtain ⟨t, ht, rfl⟩ := List.mem_map.mp hw
      unfold WorkerThread.updaterFor
      split
      · next hfor =>
        obtain ⟨ticket, hticket, hc⟩ := Option.any_eq_true _ _ |>.mp hfor
        obtain ⟨T, hheld⟩ := held_of_ticket ht hticket
        exact absurd (hs _ (h.mem_enqueued (.inl hheld)) (of_decide_eq_true hc))
          (h.not_processed (.inl hheld))
      · exact ⟨rfl, rfl, rfl⟩
  have howes := h.owes context
  rw [List.flatMap_eq_nil_iff.mpr fun w hw => (hfinished w hw).toAdd.1,
    List.flatMap_eq_nil_iff.mpr fun w hw => (hfinished w hw).toAdd.2] at howes
  exact howes.sameCounts

end Serving

/-- Empty lists add nothing. -/
theorem process_nonempty : ∀ (ls : List (List Key)) (g : Graph Key),
    ((ls.filter (· ≠ [])).map .correlation).foldl Graph.process g
      = (ls.map .correlation).foldl Graph.process g
  | [], _ => rfl
  | [] :: ls, g => process_nonempty ls g
  | (k :: l) :: ls, g => process_nonempty ls (g.correlation (k :: l))

namespace Serving

/-- A call enqueues its list, unless that is empty. -/
theorem submit_accepted (h : Serving s) {l : List Key} {c : String} {server : AttentionBrokerServer}
    (hrun : s.shared.server.submit
      { request := .correlation l, context := c, hebbianNetwork := none } = .ok server) :
    CorrelationService.acceptedFor { s with shared := { s.shared with server := server } } context
      = s.acceptedFor context ++ (listsOf context [.correlate l c]).filter (· ≠ []) := by
  rcases AttentionBrokerServer.submit_ok hrun with ⟨hsize, rfl⟩ | ⟨hsize, ws, henqueue, rfl⟩
  · obtain rfl : l = [] := List.eq_nil_of_length_eq_zero hsize
    have hnone : (listsOf context [.correlate [] c]).filter (· ≠ []) = [] := by
      simp only [listsOf, List.flatMap_singleton]
      split <;> rfl
    rw [hnone, List.append_nil]
  · obtain ⟨q, ticket, hq, hticket, rfl⟩ := WorkerThreads.enqueue_eq h.pool.wf henqueue
    have hne : l ≠ [] := List.ne_nil_of_length_pos hsize
    have hlists : ticket.listsFor context
        = (listsOf context [.correlate l c]).filter (· ≠ []) := by
      rw [hticket, Ticket.listsFor]
      simp only [listsOf, List.flatMap_singleton]
      split
      · simp [Request.handleLists, hne]
      · rfl
    rw [← hlists]
    show (s.shared.server.workerThreads.enqueued ++ [(RequestType.correlation, ticket)]).flatMap
      _ = _
    rw [List.flatMap_append, List.flatMap_singleton]
    rfl

/-- **A step enqueues what it is called with, and nothing else.** -/
theorem step_accepted (h : Serving s) {a : Action} (hstep : CorrelationService.step s a = some s')
    (context : String) : s'.acceptedFor context
      = s.acceptedFor context ++ (listsOf context [a]).filter (· ≠ []) := by
  have hnone : ∀ a : Action, listsOf context [a] = [] → s.acceptedFor context
      = s.acceptedFor context ++ (listsOf context [a]).filter (· ≠ []) := fun a ha => by
    rw [ha]
    exact (List.append_nil _).symm
  obtain ⟨l, c, server, rfl, hrun, rfl⟩ | ⟨rfl, rfl⟩ | ⟨i, rfl, rfl⟩ |
    ⟨i, t, sh, t', rfl, ht, hm, rfl⟩ := h.step_cases hstep
  · exact h.submit_accepted hrun
  · exact hnone _ rfl
  · exact hnone _ rfl
  · have henqueued : sh.server.workerThreads.enqueued
        = s.shared.server.workerThreads.enqueued := by
      cases hm with
      | worker hn hm => exact (ThreadPool.moves_ledger (s := s.pool) hm).1
      | updater => rfl
    refine Eq.trans ?_ (hnone _ rfl)
    exact congrArg (List.flatMap fun r => r.2.listsFor context) henqueued

theorem run_accepted : ∀ (actions : List Action) {s : CorrelationService},
    run CorrelationService.step s actions = some s' → (∀ a ∈ actions, Hashed a) → Serving s →
      Serving s' ∧ ∀ context, s'.acceptedFor context
        = s.acceptedFor context ++ (listsOf context actions).filter (· ≠ []) := by
  intro actions
  induction actions with
  | nil =>
    intro s hrun _ h
    obtain rfl := Option.some.inj hrun
    exact ⟨h, fun _ => (List.append_nil _).symm⟩
  | cons a actions ih =>
    intro s hrun ha h
    obtain ⟨s₁, hstep, hrun⟩ := run_cons hrun
    obtain ⟨h', haccepted⟩ := ih hrun (fun b hb => ha b (List.mem_cons_of_mem _ hb))
      (h.step (ha a List.mem_cons_self) hstep)
    refine ⟨h', fun context => ?_⟩
    have hlists : listsOf context ([a] ++ actions)
        = listsOf context [a] ++ listsOf context actions := List.flatMap_append
    show _ = _ ++ (listsOf context ([a] ++ actions)).filter _
    rw [haccepted, h.step_accepted hstep, hlists, List.filter_append, List.append_assoc]

end Serving

/-! ## Progress -/

/-- A bound on the turns for a request in the queue. -/
def ticketToGo (ticket : Ticket Message) : Nat :=
  (CorrelationWorker.start ticket.request.request.handleLists).toGo + 3

/-- A bound on the turns that a thread makes without a pass through its queue. -/
def threadToGo (t : WorkerThread) : Nat :=
  t.updater.toGo +
    match t.worker.state with
    | .processing _ _ => 2
    | .sleeping => 1
    | .selecting | .exited => 0

/-- A bound on the turns until all requests are processed. -/
def toGo (s : CorrelationService) : Nat :=
  ((s.shared.server.workerThreads.queue .correlation).toList.map ticketToGo).sum
    + (s.locals.map threadToGo).sum

/-- All requests that were enqueued are processed. -/
def AllProcessed (s : CorrelationService) : Prop :=
  ∀ r ∈ s.shared.server.workerThreads.enqueued, r ∈ s.shared.server.workerThreads.processed

/-- A worker that has something to do, or may have when it wakes up. -/
def Busy (s : CorrelationService) (t : WorkerThread) : Prop :=
  t.worker.state ≠ .exited ∧
    (t.worker.state = .selecting →
      (s.shared.server.workerThreads.queue t.worker.type).toList ≠ [])

namespace Serving

/-- **A turn of a busy worker decreases the bound.** -/
theorem turn_toGo (h : Serving s) (ht : s.locals[i]? = some t)
    (hflag : s.shared.server.workerThreads.stopFlag = false) (hbusy : s.Busy t)
    (hm : t.Moves s.shared sh t') :
    sh.server.workerThreads.stopFlag = false ∧
      CorrelationService.toGo { shared := sh, locals := s.locals.set i t' } < s.toGo := by
  have hbefore := Parties.sum_locals threadToGo ht
  have hafter := Parties.sum_set_others threadToGo ht t'
  rw [CorrelationService.toGo, CorrelationService.toGo, hbefore]
  show _ ∧ (_ : Nat) + ((s.locals.set i t').map threadToGo).sum < _
  rw [hafter]
  have hstart : (CorrelationWorker.start []).toGo = 0 := rfl
  cases hm with
  | worker hn hm =>
    refine ⟨(ThreadPool.moves_ledger (s := s.pool) hm).2.1.trans hflag, ?_⟩
    cases hm with
    | @take hw ticket l q hl hq =>
      have hT : t.worker.type = .correlation :=
        (h.routed _ (h.enqueued_of_queued (hl ▸ List.mem_cons_self))).type
      rw [hT] at hl ⊢
      let ws := s.shared.server.workerThreads.setQueue q .correlation
      have hws : (ws.queue .correlation).toList = l := by
        rw [WorkerThreads.queue_setQueue_self, hq.toList_eq]
      show ((ws.queue .correlation).toList.map ticketToGo).sum + _ < _
      rw [hl, hws]
      simp only [threadToGo, ticketToGo, hw, WorkerState.updater, List.map_cons, List.sum_cons]
      omega
    | sleep hw hl => exact absurd hl (hbusy.2 hw)
    | process hw =>
      simp only [threadToGo, hw, WorkerState.updater, hstart]
      show ((s.shared.server.workerThreads.queue .correlation).toList.map ticketToGo).sum + _ < _
      omega
    | wake hw hs =>
      simp only [threadToGo, hw, WorkerState.updater, hstart]
      show ((s.shared.server.workerThreads.queue .correlation).toList.map ticketToGo).sum + _ < _
      omega
    | exit hw hs => simp [hflag] at hs
    | stay hw => exact absurd hw hbusy.1
  | updater hn hs =>
    refine ⟨hflag, ?_⟩
    have hgo := hs.toGo
    show ((s.shared.server.workerThreads.queue .correlation).toList.map ticketToGo).sum + _ < _
    simp only [threadToGo]
    omega

/-- **A busy worker goes on, or one that has the mutex it waits for.** -/
theorem goes_on (h : Serving s) (hflag : s.shared.server.workerThreads.stopFlag = false)
    (ht : s.locals[i]? = some t) (hbusy : s.Busy t) :
    ∃ i, ∃ s' : CorrelationService, Parties.step WorkerThread.advance s i = some s' ∧
      (Serving s' ∧ s'.shared.server.workerThreads.stopFlag = false) ∧ s'.toGo < s.toGo := by
  have hgo : ∀ {i : Nat} {t t' : WorkerThread} {sh : ServerMemory}, s.locals[i]? = some t →
      s.Busy t →
      t.advance s.shared = .ok (sh, t') → t.Moves s.shared sh t' →
      ∃ i, ∃ s' : CorrelationService, Parties.step WorkerThread.advance s i = some s' ∧
        (Serving s' ∧ s'.shared.server.workerThreads.stopFlag = false) ∧ s'.toGo < s.toGo := by
    intro i t t' sh ht hbusy hadv hm
    obtain ⟨hflag', hlt⟩ := h.turn_toGo ht hflag hbusy hm
    exact ⟨i, _, Parties.step_of_turn (Parties.turn_ok ht hadv), ⟨h.turn ht hm, hflag'⟩, hlt⟩
  rcases h.turn_cases ht with ⟨sh, t', hadv, hm⟩ | ⟨-, a, -, hlocked, -⟩
  · exact hgo ht hbusy hadv hm
  · obtain ⟨j, x, hj, hholds⟩ := Parties.exists_holder (h.lock a) hlocked
    -- it is between two statements of its request
    have hboth := hholds
    rw [WorkerThread.holdsAt, Bool.and_eq_true] at hboth
    obtain ⟨hpointer, hupdater⟩ := hboth
    obtain ⟨ticket, hticket, -⟩ := WorkerThread.pointer_eq_some (of_decide_eq_true hpointer)
    have hbusy' : s.Busy x := by
      unfold WorkerThread.ticket at hticket
      split at hticket
      · next T ticket' hstate => exact ⟨by simp [hstate], by simp [hstate]⟩
      · cases hticket
    rcases h.turn_cases hj with ⟨sh, t', hadv, hm⟩ | ⟨-, b, -, -, hfree⟩
    · exact hgo hj hbusy' hadv hm
    · rw [hupdater] at hfree
      cases hfree

/-- **While a request is not processed, some worker can go on.** -/
theorem progress (h : Serving s) (hflag : s.shared.server.workerThreads.stopFlag = false) :
    s.AllProcessed ∨ ∃ i, ∃ s' : CorrelationService,
      Parties.step WorkerThread.advance s i = some s' ∧
      (Serving s' ∧ s'.shared.server.workerThreads.stopFlag = false) ∧ s'.toGo < s.toGo := by
  by_cases hall : s.AllProcessed
  · exact .inl hall
  right
  unfold AllProcessed at hall
  push Not at hall
  obtain ⟨r, hr, hnot⟩ := hall
  have hmem : r ∈ (s.pool.shared.enqueued : Multiset (RequestType × Ticket Message)) := hr
  rw [h.pool.ledger, Multiset.mem_add, Multiset.mem_add] at hmem
  obtain (hp | hheld) | hq := hmem
  · exact absurd hp hnot
  · rw [← Multiset.sum_coe] at hheld
    obtain ⟨m, hm, hrm⟩ := Multiset.mem_join.mp hheld
    obtain ⟨w, hw, rfl⟩ := List.mem_map.mp (Multiset.mem_coe.mp hm)
    obtain ⟨t, ht, rfl⟩ := List.mem_map.mp hw
    obtain ⟨i, hi⟩ := List.mem_iff_getElem?.mp ht
    refine h.goes_on hflag hi ?_
    unfold Worker.held at hrm
    split at hrm
    · next T ticket hstate => exact ⟨by simp [hstate], by simp [hstate]⟩
    · cases Multiset.notMem_zero _ hrm
  · have hT : r.1 = .correlation := (h.routed r hr).type
    obtain ⟨w, hw, htype⟩ := h.pool.staffed .correlation
    have hstate : w.state ≠ .exited := fun he => by
      have hstopped := h.pool.stopped w hw he
      rw [show s.pool.shared.stopFlag = false from hflag] at hstopped
      cases hstopped
    obtain ⟨t, ht, rfl⟩ := List.mem_map.mp hw
    obtain ⟨i, hi⟩ := List.mem_iff_getElem?.mp ht
    refine h.goes_on hflag hi ⟨hstate, fun _ => ?_⟩
    have hqueue := WorkerThreads.mem_queued.mp hq
    rw [hT] at hqueue
    rw [htype]
    exact List.ne_nil_of_mem hqueue

end Serving

/--
**The server counts every correlation request.**

Calls for any contexts come in while the workers run, and a worker updates a network statement by
statement while others update the same one. No step fails and no worker waits for ever. When the
requests of a context are processed, its network has the nodes, neighbors and counts of all calls
for it one by one, in whatever order. While `stop_flag` is not set, the workers come to that for
all contexts without another call.
-/
theorem calls_counted {actions : List Action} (hhashed : ∀ a ∈ actions, Serving.Hashed a)
    (hrun : run CorrelationService.step start actions = some s) :
    (∀ i t e, s.locals[i]? = some t → s.turn WorkerThread.advance i = .error e → e = .waits) ∧
    (s.shared.server.workerThreads.stopFlag = false → ∃ rest, ∃ s' : CorrelationService,
      run (Parties.step WorkerThread.advance) s rest = some s' ∧ ∀ context, s'.Settled context) ∧
    ∀ context, s.Settled context →
      CorrelationThreads.CountsOneByOne .new (listsOf context actions)
        (s.shared.server.network context) := by
  obtain ⟨h, haccepted⟩ := Serving.run_accepted actions hrun hhashed .start
  refine ⟨fun i t e ht herror => ?_, fun hflag => ?_, fun context hs => ?_⟩
  · rcases h.turn_cases ht with ⟨sh, t', hadv, -⟩ | ⟨hadv, -⟩
    · rw [Parties.turn_ok ht hadv] at herror
      cases herror
    · rw [Parties.turn_error ht hadv] at herror
      cases herror
      rfl
  · obtain ⟨rest, s', hrest, hall⟩ : ∃ rest, ∃ s' : CorrelationService,
        run (Parties.step WorkerThread.advance) s rest = some s' ∧ s'.AllProcessed :=
      reaches_final (fun s => Serving s ∧ s.shared.server.workerThreads.stopFlag = false)
        AllProcessed toGo (fun s hs => hs.1.progress hs.2) s ⟨h, hflag⟩
    exact ⟨rest, s', hrest, fun context r hr _ => hall r hr⟩
  · have hsame := h.sameCounts hs
    have hlists : ∀ l ∈ listsOf context actions, ∀ k ∈ l, IsHandle k := by
      intro l hl
      obtain ⟨a, ha, hmem⟩ := List.mem_flatMap.mp hl
      cases a with
      | correlate handleList c =>
        have hhandles : ∀ k ∈ handleList, IsHandle k := hhashed _ ha
        change l ∈ ite _ _ _ at hmem
        split at hmem
        · rwa [List.mem_singleton.mp hmem]
        · cases hmem
      | stop | thread => cases hmem
    have htarget : s.target context
        = ((listsOf context actions).map .correlation).foldl Graph.process
            HebbianNetwork.new.graph := by
      rw [target, haccepted, ← process_nonempty (listsOf context actions)]
      rfl
    rw [htarget] at hsame
    exact CorrelationThreads.countsOneByOne HebbianNetwork.sound_new (h.wf context) hlists hsame

/-- Two workers on the network of the global context, in turns, and then whoever can go on. -/
theorem calls_counted_in_turns : ∃ (rest : List Action) (s : CorrelationService),
    run CorrelationService.step start
      ([.correlate [handleOf 97, handleOf 98] "", .correlate [handleOf 97, handleOf 98] "global"] ++
        (List.range 30).map (fun i => .thread (i % 2 * 2 + 1)) ++ rest) = some s ∧
      CorrelationThreads.CountsOneByOne .new
        [[handleOf 97, handleOf 98], [handleOf 97, handleOf 98]]
        (s.shared.server.network "") := by
  let turns : List Action :=
    [.correlate [handleOf 97, handleOf 98] "", .correlate [handleOf 97, handleOf 98] "global"] ++
      (List.range 30).map fun i => .thread (i % 2 * 2 + 1)
  have hab : ∀ k ∈ [handleOf 97, handleOf 98], IsHandle k := by decide +kernel
  have hhashed : ∀ a ∈ turns, Serving.Hashed a := by
    refine List.forall_mem_append.mpr ⟨?_, fun a ha => ?_⟩
    · exact List.forall_mem_cons.mpr ⟨hab, List.forall_mem_singleton.mpr hab⟩
    · obtain ⟨i, -, rfl⟩ := List.mem_map.mp ha
      trivial
  have hflag : (run CorrelationService.step start turns).map
      (fun s => s.shared.server.workerThreads.stopFlag) = some false := by decide +kernel
  obtain ⟨s, hrun, hs⟩ := Option.map_eq_some_iff.mp hflag
  obtain ⟨-, hgo, -⟩ := calls_counted hhashed hrun
  obtain ⟨rest, s', hrest, hsettled⟩ := hgo hs
  have hthreads : ∀ (rest : List Nat) (s : CorrelationService),
      run CorrelationService.step s (rest.map .thread)
        = run (Parties.step WorkerThread.advance) s rest := by
    intro rest
    induction rest with
    | nil => exact fun _ => rfl
    | cons i rest ih => exact fun s => congrArg (Option.bind _) (funext ih)
  have hall : run CorrelationService.step start (turns ++ rest.map .thread) = some s' := by
    rw [run_of_run hrun, hthreads, hrest]
  have hhashed' : ∀ a ∈ turns ++ rest.map Action.thread, Serving.Hashed a := by
    refine List.forall_mem_append.mpr ⟨hhashed, fun a ha => ?_⟩
    obtain ⟨i, -, rfl⟩ := List.mem_map.mp ha
    trivial
  have hlists : listsOf "" (turns ++ rest.map .thread)
      = [[handleOf 97, handleOf 98], [handleOf 97, handleOf 98]] := by
    have hnone : listsOf "" (rest.map .thread) = [] := List.flatMap_eq_nil_iff.mpr fun a ha => by
      obtain ⟨i, -, rfl⟩ := List.mem_map.mp ha
      rfl
    have hsplit : listsOf "" (turns ++ rest.map .thread)
        = listsOf "" turns ++ listsOf "" (rest.map .thread) := List.flatMap_append
    rw [hsplit, hnone]
    rfl
  obtain ⟨-, -, hcounts⟩ := calls_counted hhashed' hall
  exact ⟨_, s', hall, hlists ▸ hcounts "" (hsettled "")⟩

end CorrelationService

end AttentionBroker
