import AttentionBroker.Server.AttentionBrokerServer

/-!
# Contexts

The network of a request is chosen when the request is received, and its pointer travels with
the request through a queue. Here calls run one after the other, and workers run the requests
to their end, in any order that is first in, first out in each queue.

`Routed` says that every pointer in a queue leads to the network of its context, and that this
network is what the requests of the context made of a new one. So the requests of other
contexts do not matter to it.
-/

namespace AttentionBroker

open Infra

namespace AttentionBrokerServer

/-! ## The steps -/

/-- The network object at an address has changed. -/
def setNetwork (a : Nat) (net : HebbianNetwork) (s : AttentionBrokerServer) :
    AttentionBrokerServer :=
  { s with networks := s.networks.set a net }

/-- `spread_stimuli` or `correlation` on the network that the request points to. -/
def process (message : Message) (s : AttentionBrokerServer) : Option AttentionBrokerServer :=
  match message.hebbianNetwork with
  | none => some s
  | some a =>
    ((s.networks.cell a).process message.request).map fun net => s.setNetwork a net

/-- Notes that a request has been processed. -/
def noteProcessed (type : RequestType) (ticket : Ticket Message) (s : AttentionBrokerServer) :
    AttentionBrokerServer :=
  { s with
    workerThreads :=
      { s.workerThreads with processed := s.workerThreads.processed ++ [(type, ticket)] } }

/-- One iteration of the loop of `worker_thread`: the next request, from its start to its end. -/
def work (threadId : Nat) (s : AttentionBrokerServer) : Option AttentionBrokerServer := do
  let ((type, request), workerThreads) ← (s.workerThreads.next threadId).toOption
  let s := { s with workerThreads := workerThreads }
  match request with
  | none => return s
  | some ticket =>
    let s ← s.process ticket.request
    return s.noteProcessed type ticket

/-- A call, or a worker that runs its next request. -/
inductive Action where
  | stimulate (handleCount : HandleCount) (context : String)
  | correlate (handleList : List Key) (context : String)
  | work (threadId : Nat)

/-- Performs an action. -/
def step (s : AttentionBrokerServer) : Action → Option AttentionBrokerServer
  | .stimulate handleCount context => ((s.stimulate handleCount context).map Prod.snd).toOption
  | .correlate handleList context => ((s.correlate handleList context).map Prod.snd).toOption
  | .work threadId => s.work threadId

/-! ## The network of a context -/

/-- The key of a context in the map. -/
def canonical (context : String) : String := if context = "" then globalContext else context

/-- The network of a context. One that has none yet gets a new one with its first request. -/
def network (s : AttentionBrokerServer) (context : String) : HebbianNetwork :=
  match s.hebbianNetwork.lookup (canonical context) with
  | some (some a) => s.networks.cell a
  | _ => .new

/-- The requests of a context among some. -/
def ofContext (context : String) (entries : List (RequestType × Ticket Message)) :
    List Request :=
  (entries.filter fun p => canonical p.2.request.context = canonical context).map
    (·.2.request.request)

/-- The processed requests of a context, in the order in which they were processed. -/
def requestsFor (s : AttentionBrokerServer) (context : String) : List Request :=
  ofContext context s.workerThreads.processed

variable {s s' : AttentionBrokerServer} {m : Message} {context : String} {p : Option Nat}

/-- An iteration is the steps of `Worker.advance`, with the network of the request processed. -/
theorem work_advance {threadId : Nat} (hrun : s.work threadId = some s') :
    ∃ ws state, Worker.advance { threadId := threadId, state := .selecting } s.workerThreads
        = .ok (ws, { threadId := threadId, state := state }) ∧
      (state = .sleeping ∧ s'.workerThreads = ws ∨
        Worker.advance { threadId := threadId, state := state } ws
          = .ok (s'.workerThreads, { threadId := threadId, state := .selecting })) := by
  cases hnext : s.workerThreads.next threadId with
  | error e => simp [work, hnext, Except.toOption] at hrun
  | ok r =>
    obtain ⟨⟨type, request⟩, ws⟩ := r
    cases request with
    | none =>
      have hs' : { s with workerThreads := ws } = s' := by
        simpa [work, hnext, Except.toOption] using hrun
      subst hs'
      exact ⟨ws, .sleeping, by simp [Worker.advance, hnext, bind, Except.bind], .inl ⟨rfl, rfl⟩⟩
    | some ticket =>
      cases hprocess : process ticket.request { s with workerThreads := ws } with
      | none => simp [work, hnext, Except.toOption, hprocess] at hrun
      | some server =>
        have hs' : server.noteProcessed type ticket = s' := by
          simpa [work, hnext, Except.toOption, hprocess] using hrun
        subst hs'
        have hframe : server.workerThreads = ws := by
          unfold process at hprocess
          split at hprocess
          · cases hprocess
            rfl
          · obtain ⟨net, -, rfl⟩ := Option.map_eq_some_iff.mp hprocess
            rfl
        refine ⟨ws, .processing type ticket, ?_, .inr ?_⟩
        · simp [Worker.advance, hnext, bind, Except.bind]
        · simp [Worker.advance, noteProcessed, hframe]

/-! ## Selecting a network -/

/-- The map leads to networks, to different ones from different keys. -/
structure Mapped (s : AttentionBrokerServer) : Prop where
  global : s.found globalContext
  allocated : ∀ k p, s.hebbianNetwork.lookup k = some p → ∃ a < s.networks.next, p = some a
  distinct : ∀ k k' p, s.hebbianNetwork.lookup k = some p → s.hebbianNetwork.lookup k' = some p →
    k = k'

/-- What a call of `select_hebbian_network` that returned `p` has changed. -/
structure Selected (s : AttentionBrokerServer) (context : String) (p : Option Nat)
    (s' : AttentionBrokerServer) : Prop where
  mapped : Mapped s'
  selected : s'.hebbianNetwork.lookup (canonical context) = some p
  kept : ∀ k q, s.hebbianNetwork.lookup k = some q → s'.hebbianNetwork.lookup k = some q
  found : ∀ k, s'.found k ↔ s.found k ∨ k = canonical context
  network : ∀ c, s'.network c = s.network c
  workerThreads : s'.workerThreads = s.workerThreads

theorem Mapped.withWorkerThreads (h : Mapped s) (ws : WorkerThreads Message) :
    Mapped { s with workerThreads := ws } :=
  ⟨h.global, h.allocated, h.distinct⟩

theorem lookup_create (context k : String) (s : AttentionBrokerServer) :
    (s.create context).2.hebbianNetwork.lookup k
      = if k = context then some (some s.networks.next) else s.hebbianNetwork.lookup k := by
  by_cases hk : k = context
  · subst hk
    rw [if_pos rfl]
    exact AList.lookup_insert _
  · rw [if_neg hk]
    exact AList.lookup_insert_ne hk

theorem index_found (h : s.hebbianNetwork.lookup context = some p) : s.index context = (p, s) := by
  simp [index, NetworkMap.index, h]

/-- A context with a network gets that one. -/
theorem select_found (h : s.hebbianNetwork.lookup (canonical context) = some p) :
    s.selectHebbianNetwork context = (p, s) := by
  by_cases hc : context = ""
  · rw [canonical, if_pos hc] at h
    simp [selectHebbianNetwork, hc, index_found h]
  · rw [canonical, if_neg hc] at h
    simp [selectHebbianNetwork, hc, found, h, index_found h]

/-- A context without a network gets a new one. -/
theorem select_new (hc : context ≠ "") (h : s.hebbianNetwork.lookup context = none) :
    s.selectHebbianNetwork context = s.create context := by
  simp [selectHebbianNetwork, hc, found, h]

theorem network_of_lookup {a : Nat}
    (h : s.hebbianNetwork.lookup (canonical context) = some (some a)) :
    s.network context = s.networks.cell a := by
  rw [network, h]

theorem network_of_none (h : s.hebbianNetwork.lookup (canonical context) = none) :
    s.network context = .new := by
  rw [network, h]

theorem Mapped.fresh (h : Mapped s) (k : String) :
    s.hebbianNetwork.lookup k ≠ some (some s.networks.next) := by
  intro hk
  obtain ⟨a, ha, he⟩ := h.allocated k _ hk
  exact Nat.lt_irrefl _ (Option.some.inj he ▸ ha)

/-- A new network is another one than those of the other contexts. -/
theorem Mapped.create (h : Mapped s) (context : String) : Mapped (s.create context).2 := by
  refine ⟨?_, fun k q hq => ?_, fun k k' q hq hq' => ?_⟩
  · have hg : (s.hebbianNetwork.lookup globalContext).isSome := h.global
    show ((s.create context).2.hebbianNetwork.lookup globalContext).isSome
    rw [lookup_create]
    split
    · rfl
    · exact hg
  · rw [lookup_create] at hq
    split at hq
    · exact ⟨s.networks.next, Nat.lt_succ_self _, (Option.some.inj hq).symm⟩
    · obtain ⟨a, ha, he⟩ := h.allocated k q hq
      exact ⟨a, Nat.lt_succ_of_lt ha, he⟩
  · rw [lookup_create] at hq hq'
    split at hq
    · next hk =>
      split at hq'
      · next hk' => rw [hk, hk']
      · exact absurd (hq'.trans hq.symm) (h.fresh k')
    · split at hq'
      · exact absurd (hq.trans hq'.symm) (h.fresh k)
      · exact h.distinct k k' q hq hq'

/-- A new network is what its context would have got anyway. -/
theorem Mapped.network_create (h : Mapped s) (hnone : s.hebbianNetwork.lookup context = none)
    (c : String) : (s.create context).2.network c = s.network c := by
  by_cases hk : canonical c = context
  · have hnew : (s.create context).2.hebbianNetwork.lookup (canonical c)
        = some (some s.networks.next) := by rw [lookup_create, if_pos hk]
    rw [network_of_lookup hnew, network_of_none (by rw [hk]; exact hnone)]
    exact Pool.alloc_cell_next _ _
  · have hold : (s.create context).2.hebbianNetwork.lookup (canonical c)
        = s.hebbianNetwork.lookup (canonical c) := by rw [lookup_create, if_neg hk]
    cases hl : s.hebbianNetwork.lookup (canonical c) with
    | none => rw [network_of_none hl, network_of_none (hold.trans hl)]
    | some q =>
      obtain ⟨a, ha, rfl⟩ := h.allocated _ q hl
      rw [network_of_lookup hl, network_of_lookup (hold.trans hl)]
      exact Pool.alloc_cell_lt _ _ ha

/-- **`select_hebbian_network` finds or creates the network of its context.** -/
theorem Mapped.select (h : Mapped s) (context : String) :
    Selected s context (s.selectHebbianNetwork context).1 (s.selectHebbianNetwork context).2 := by
  cases hl : s.hebbianNetwork.lookup (canonical context) with
  | some p =>
    rw [select_found hl]
    refine ⟨h, hl, fun _ _ hq => hq, fun k => ?_, fun _ => rfl, rfl⟩
    refine (or_iff_left_of_imp ?_).symm
    rintro rfl
    exact Option.isSome_iff_exists.mpr ⟨p, hl⟩
  | none =>
    have hc : context ≠ "" := by
      rintro rfl
      have hg : (s.hebbianNetwork.lookup globalContext).isSome := h.global
      rw [show globalContext = canonical "" from rfl, hl] at hg
      cases hg
    have hcanonical : canonical context = context := if_neg hc
    rw [hcanonical] at hl
    rw [select_new hc hl]
    refine ⟨h.create context, ?_, fun k q hq => ?_, fun k => ?_, h.network_create hl, rfl⟩
    · rw [hcanonical, lookup_create, if_pos rfl]
      rfl
    · rw [lookup_create, if_neg, hq]
      rintro rfl
      cases hl.symm.trans hq
    · rw [hcanonical, found, found, lookup_create]
      by_cases hk : k = context
      · simp [hk]
      · simp [hk]

/-! ## Requests in the queues -/

/--
What every state satisfies.

Pointers in the queues lead to the networks of their contexts (`messages`), each of which is what
the processed requests of the context made of a new network (`history`). The context of a
request has a network (`known`), and a request is processed or queued (`ledger`).
-/
structure Routed (s : AttentionBrokerServer) : Prop where
  mapped : Mapped s
  wf : s.workerThreads.Wf
  messages : ∀ T, ∀ t ∈ (s.workerThreads.queue T).toList,
    s.hebbianNetwork.lookup (canonical t.request.context) = some t.request.hebbianNetwork
  known : ∀ k, s.found k ↔ k = globalContext ∨
    ∃ r ∈ s.workerThreads.enqueued, canonical r.2.request.context = k
  ledger : ∀ r, r ∈ s.workerThreads.enqueued ↔
    r ∈ s.workerThreads.processed ∨ r.2 ∈ (s.workerThreads.queue r.1).toList
  history : ∀ context,
    run HebbianNetwork.process .new (s.requestsFor context) = some (s.network context)

/-- **A call routes its request.** -/
theorem Routed.submit (h : Routed s) (hrun : s.submit m = .ok s') : Routed s' := by
  rcases submit_ok hrun with ⟨-, rfl⟩ | ⟨-, ws, henqueue, rfl⟩
  · exact h
  · have hsel := h.mapped.select m.context
    obtain ⟨q, t, hq, ht, rfl⟩ := WorkerThreads.enqueue_eq h.wf henqueue
    have hcontext : t.request.context = m.context := by rw [ht]
    have hpointer : t.request.hebbianNetwork = (s.selectHebbianNetwork m.context).1 := by rw [ht]
    have hqueue := WorkerThreads.mem_queue_push hq
    refine ⟨hsel.mapped.withWorkerThreads _, h.wf.setQueue hq, fun T t' ht' => ?_, fun k => ?_,
      fun r => ?_, fun c => ?_⟩
    · rcases (hqueue (T, t')).mp ht' with hold | hnew
      · exact hsel.kept _ _ (h.messages T t' hold)
      · rw [(Prod.mk.inj hnew).2, hcontext, hpointer]
        exact hsel.selected
    · show (s.selectHebbianNetwork m.context).2.found k ↔ k = globalContext ∨
        ∃ r ∈ s.workerThreads.enqueued ++ [(m.request.type, t)], canonical r.2.request.context = k
      rw [hsel.found, h.known]
      simp only [List.mem_append, List.mem_singleton, or_and_right, exists_or, exists_eq_left,
        hcontext, or_assoc, eq_comm (a := k)]
    · show r ∈ s.workerThreads.enqueued ++ [(m.request.type, t)] ↔
        r ∈ (s.workerThreads.setQueue q m.request.type).processed ∨
          r.2 ∈ ((s.workerThreads.setQueue q m.request.type).queue r.1).toList
      rw [WorkerThreads.processed_setQueue, hqueue, List.mem_append, h.ledger,
        List.mem_singleton, or_assoc]
    -- what was processed has not changed, and neither have the networks
    · have hnetwork := hsel.network c
      have hprocessed : (s.workerThreads.setQueue q m.request.type).processed
          = s.workerThreads.processed := WorkerThreads.processed_setQueue
      show run _ _ (ofContext c (s.workerThreads.setQueue q m.request.type).processed)
        = some ((s.selectHebbianNetwork m.context).2.network c)
      rw [hnetwork, hprocessed]
      exact h.history c

/-- A worker finds its queue empty, or processes a request on the network of its context. -/
theorem Routed.work_cases (h : Routed s) {threadId : Nat} (hrun : s.work threadId = some s') :
    s' = s ∨ ∃ T t l q a net, (s.workerThreads.queue T).toList = t :: l ∧ q.Holds l ∧
      s.hebbianNetwork.lookup (canonical t.request.context) = some (some a) ∧
      (s.networks.cell a).process t.request.request = some net ∧
      s' = ({ s with workerThreads := s.workerThreads.setQueue q T }.setNetwork a
        net).noteProcessed T t := by
  cases hl : (s.workerThreads.queue (WorkerThreads.selects threadId)).toList with
  | nil =>
    have hnext := WorkerThreads.next_nil h.wf hl
    refine .inl ?_
    simpa [AttentionBrokerServer.work, hnext, Except.toOption] using hrun.symm
  | cons t l =>
    obtain ⟨q, hq, hnext⟩ := WorkerThreads.next_cons h.wf hl
    have hpointer := h.messages _ t (hl ▸ List.mem_cons_self)
    obtain ⟨a, -, hnetwork⟩ := h.mapped.allocated _ _ hpointer
    rw [hnetwork] at hpointer
    cases hprocess : (s.networks.cell a).process t.request.request with
    | none =>
      simp [AttentionBrokerServer.work, hnext, Except.toOption, process, hnetwork, hprocess] at hrun
    | some net =>
      refine .inr ⟨WorkerThreads.selects threadId, t, l, q, a, net, hl, hq, hpointer, hprocess, ?_⟩
      simpa [AttentionBrokerServer.work, hnext, Except.toOption, process, hnetwork, hprocess]
        using hrun.symm

theorem ofContext_append (context : String) (entries : List (RequestType × Ticket Message))
    (T : RequestType) (t : Ticket Message) :
    ofContext context (entries ++ [(T, t)]) = ofContext context entries ++
      if canonical t.request.context = canonical context then [t.request.request] else [] := by
  unfold ofContext
  split <;> simp [*]

/-- Processing a request changes the network of its context. -/
theorem Mapped.network_set (h : Mapped s) {key : String} {a : Nat} {net : HebbianNetwork}
    (hkey : s.hebbianNetwork.lookup key = some (some a)) (context : String) :
    (s.setNetwork a net).network context
      = if key = canonical context then net else s.network context := by
  have hmap : (s.setNetwork a net).hebbianNetwork = s.hebbianNetwork := rfl
  split
  · next hk =>
    subst hk
    rw [network_of_lookup (hmap ▸ hkey)]
    exact Pool.set_cell_self _ _ _
  · next hk =>
    cases hl : s.hebbianNetwork.lookup (canonical context) with
    | none => rw [network_of_none hl, network_of_none (hmap ▸ hl)]
    | some p =>
      obtain ⟨b, -, rfl⟩ := h.allocated _ p hl
      rw [network_of_lookup hl, network_of_lookup (hmap ▸ hl)]
      refine Pool.set_cell_ne _ _ ?_
      rintro rfl
      exact hk (h.distinct _ _ _ hkey hl)

@[simp] theorem queue_noteProcessed (T T' : RequestType) (t : Ticket Message) :
    (s.noteProcessed T t).workerThreads.queue T' = s.workerThreads.queue T' := by
  cases T' <;> rfl

/-- **A worker keeps requests routed.** -/
theorem Routed.work (h : Routed s) {threadId : Nat} (hrun : s.work threadId = some s') :
    Routed s' := by
  rcases h.work_cases hrun with rfl | ⟨T, t, l, q, a, net, hl, hq, hkey, hprocess, rfl⟩
  · exact h
  · let ws := s.workerThreads.setQueue q T
    have hqueue := WorkerThreads.mem_queue_pop hl hq
    have henqueued : ws.enqueued = s.workerThreads.enqueued := WorkerThreads.enqueued_setQueue
    have hprocessed : ws.processed = s.workerThreads.processed := WorkerThreads.processed_setQueue
    have hqueues : ∀ T', ((({ s with workerThreads := ws }.setNetwork a net).noteProcessed
        T t).workerThreads.queue T') = ws.queue T' := fun T' => queue_noteProcessed _ _ _
    refine ⟨⟨h.mapped.global, h.mapped.allocated, h.mapped.distinct⟩, fun T' => ?_,
      fun T' t' ht' => ?_, fun k => ?_, fun r => ?_, fun c => ?_⟩
    · rw [hqueues]
      exact h.wf.setQueue hq T'
    · rw [hqueues] at ht'
      exact h.messages T' t' ((hqueue (T', t')).mpr (.inr ht'))
    · show s.found k ↔ k = globalContext ∨ ∃ r ∈ ws.enqueued, canonical r.2.request.context = k
      rw [henqueued]
      exact h.known k
    · show r ∈ ws.enqueued ↔ r ∈ ws.processed ++ [(T, t)] ∨ r.2 ∈ _
      rw [hqueues, henqueued, h.ledger, hqueue, hprocessed, List.mem_append, List.mem_singleton,
        or_assoc]
    · show run _ _ (ofContext c (ws.processed ++ [(T, t)]))
        = some (({ s with workerThreads := ws }.setNetwork a net).network c)
      have hnetwork : ({ s with workerThreads := ws }.setNetwork a net).network c
          = if canonical t.request.context = canonical c then net else s.network c :=
        (h.mapped.withWorkerThreads ws).network_set hkey c
      have hhistory : run HebbianNetwork.process .new (ofContext c s.workerThreads.processed)
          = some (s.network c) := h.history c
      rw [hnetwork, hprocessed, ofContext_append, run_of_run hhistory]
      split
      · next hc =>
        have hcell : s.network c = s.networks.cell a := network_of_lookup (hc ▸ hkey)
        rw [run, hcell, hprocess]
        rfl
      · rfl

/-! ## Whole runs -/

variable {s₁ s₂ : AttentionBrokerServer} {actions actions₁ actions₂ : List Action}

theorem Routed.step (h : Routed s) {a : Action} (hstep : s.step a = some s') : Routed s' := by
  have hcall : ∀ {m}, (s.submit m).toOption = some s' → Routed s' := by
    intro m hm
    cases hrun : s.submit m with
    | error e => simp [hrun, Except.toOption] at hm
    | ok server =>
      obtain rfl : server = s' := by simpa [hrun, Except.toOption] using hm
      exact h.submit hrun
  cases a with
  | stimulate handleCount context =>
    rw [AttentionBrokerServer.step, stimulate_state] at hstep
    exact hcall hstep
  | correlate handleList context =>
    rw [AttentionBrokerServer.step, correlate_state] at hstep
    exact hcall hstep
  | work threadId => exact h.work hstep

theorem lookup_new (k : String) :
    new.hebbianNetwork.lookup k = if k = globalContext then some (some 0) else none := by
  by_cases hk : k = globalContext
  · subst hk
    rw [if_pos rfl]
    exact AList.lookup_insert _
  · rw [if_neg hk]
    exact (AList.lookup_insert_ne hk).trans (AList.lookup_empty k)

theorem routed_new : Routed new := by
  have haccounted : newWorkerThreads.Accounted :=
    ThreadPool.accounted_start ⟨0, by decide, rfl⟩ ⟨1, by decide, rfl⟩
  have hqueue : ∀ T, (new.workerThreads.queue T).toList = [] := by
    intro T
    cases T <;> exact (RequestQueue.holds_new (by decide)).toList_eq
  refine ⟨⟨rfl, fun k p hp => ?_, fun k k' p hp hp' => ?_⟩, haccounted.wf, fun T t ht => ?_,
    fun k => ?_, fun r => ?_, fun context => ?_⟩
  · rw [lookup_new] at hp
    split at hp
    · exact ⟨0, Nat.zero_lt_one, (Option.some.inj hp).symm⟩
    · cases hp
  · rw [lookup_new] at hp hp'
    split at hp
    · next hk =>
      split at hp'
      · next hk' => rw [hk, hk']
      · cases hp'
    · cases hp
  · rw [hqueue] at ht
    cases ht
  · rw [found, lookup_new]
    by_cases hk : k = globalContext <;> simp [hk, new, newWorkerThreads, ThreadPool.start]
  · rw [hqueue]
    simp [new, newWorkerThreads, ThreadPool.start]
  · show some HebbianNetwork.new = some (new.network context)
    by_cases hk : canonical context = globalContext
    · have hl := lookup_new (canonical context)
      rw [if_pos hk] at hl
      rw [network_of_lookup hl]
      rfl
    · have hl := lookup_new (canonical context)
      rw [if_neg hk] at hl
      rw [network_of_none hl]

theorem routed_of_run (hrun : run step new actions = some s) : Routed s :=
  run_preserves Routed (fun _ _ _ h hs => h.step hs) hrun routed_new

/-- All queues are empty. -/
def Drained (s : AttentionBrokerServer) : Prop :=
  ∀ T, (s.workerThreads.queue T).toList = []

/-- When the queues are empty, the contexts with a network are those of the processed requests. -/
theorem Routed.found_iff (h : Routed s) (hd : s.Drained) (context : String) :
    s.found (canonical context) ↔
      canonical context = globalContext ∨ s.requestsFor context ≠ [] := by
  have hprocessed : ∀ r, r ∈ s.workerThreads.enqueued ↔ r ∈ s.workerThreads.processed := by
    intro r
    rw [h.ledger, hd]
    simp
  rw [h.known]
  refine or_congr_right ?_
  simp only [hprocessed, requestsFor, ofContext, ne_eq, List.map_eq_nil_iff,
    List.filter_eq_nil_iff, decide_eq_true_eq]
  push Not
  rfl

/--
**Contexts do not interfere.**

The network of a context after a run is what the processed requests of the context, in their
order, made of a new network. So two runs that process the same requests for it end with
equal networks, and if they have processed all their requests, the context has a network
in both or in none.
-/
theorem contexts_noninterference (h₁ : run step new actions₁ = some s₁)
    (h₂ : run step new actions₂ = some s₂) (context : String)
    (heq : s₁.requestsFor context = s₂.requestsFor context) :
    s₁.network context = s₂.network context ∧
      (s₁.Drained → s₂.Drained →
        (s₁.found (canonical context) ↔ s₂.found (canonical context))) := by
  have hr₁ := routed_of_run h₁
  have hr₂ := routed_of_run h₂
  constructor
  · have hn := (hr₁.history context).symm
    rw [heq, hr₂.history context] at hn
    exact Option.some.inj hn
  · intro hd₁ hd₂
    rw [hr₁.found_iff hd₁, hr₂.found_iff hd₂, heq]

/-- One run uses the global context by its name, and in between a context of its own. -/
theorem contexts_noninterference_global :
    ∃ s₁ s₂, run step new [.correlate [handleOf 97, handleOf 98] "", .work 1] = some s₁ ∧
      run step new [.correlate [handleOf 97] "other", .stimulate stimulusOfA "other",
        .correlate [handleOf 97, handleOf 98] "global", .work 0, .work 1, .work 1] = some s₂ ∧
      s₁.network "" = s₂.network "" ∧ (s₁.Drained → s₂.Drained →
        (s₁.found (canonical "") ↔ s₂.found (canonical ""))) := by
  have hrun₁ : (run step new [.correlate [handleOf 97, handleOf 98] "", .work 1]).map
      (fun s => s.requestsFor "") = some [.correlation [handleOf 97, handleOf 98]] := by
    decide +kernel
  have hrun₂ : (run step new [.correlate [handleOf 97] "other", .stimulate stimulusOfA "other",
      .correlate [handleOf 97, handleOf 98] "global", .work 0, .work 1, .work 1]).map
      (fun s => s.requestsFor "") = some [.correlation [handleOf 97, handleOf 98]] := by
    decide +kernel
  obtain ⟨s₁, h₁, he₁⟩ := Option.map_eq_some_iff.mp hrun₁
  obtain ⟨s₂, h₂, he₂⟩ := Option.map_eq_some_iff.mp hrun₂
  exact ⟨s₁, s₂, h₁, h₂, contexts_noninterference h₁ h₂ "" (he₁.trans he₂.symm)⟩

end AttentionBrokerServer

end AttentionBroker
