import AttentionBroker.Node.InboxThreads

/-!
# The steps of the inbox threads

`NodeNetwork.inFlight` and `NodeNetwork.executed` say what the threads and the queues hold of the
broadcasts. A step of a thread leaves that alone, or is the step in which a node processes a message
(`Moves`). `NodeNetwork.outcome` says that no step fails as long as the queues can grow.
-/

namespace AttentionBroker

open Infra SynchronousGRPC

variable {μ : Type}

namespace NodeNetwork

variable (net : NodeNetwork μ)

/-! ## What is in flight -/

/-- What the queue of a node holds, with the numbers of the broadcasts. -/
def waiting (s : NodeMemory μ) (v : String) : List (Nat × Delivery) :=
  (s.incomingMessages v).toList.map fun parcel =>
    (parcel.serial, { recipient := v, data := parcel.data })

/-- What all queues hold. -/
noncomputable def queued (s : NodeMemory μ) : List (Nat × Delivery) :=
  net.nodes.toList.flatMap (waiting s)

/-- A message on its way to some nodes. -/
def deliveries (parcel : Parcel) (targets : List String) : List (Nat × Delivery) :=
  targets.map fun target => (parcel.serial, { recipient := target, data := parcel.data })

/-- What a thread has received or has still to send. -/
def parcels (t : NodeThread) : List (Nat × Delivery) :=
  match t.stage with
  | .broadcasting serial command args =>
    deliveries (broadcastParcel t.node serial command args) (net.peers t.node)
  | .received parcel => deliveries parcel [t.node]
  | .locking parcel visited =>
    deliveries parcel ((net.peers t.node).filter fun target => target ∉ visited)
  | .sending parcel visited targets =>
    deliveries parcel (targets.filter fun target => target ∉ visited)
  | .polling | .acting _ | .returned => []

/-- The execution of a message at a node. -/
def execution (nodeId : String) (parcel : Parcel) : List (Nat × Execution μ) :=
  ((net.messageFactory nodeId parcel.data.command parcel.data.args).map fun message =>
    (parcel.serial, { node := nodeId, message := message, data := parcel.data })).toList

/-- What a thread has still to execute. -/
def pending (t : NodeThread) : List (Nat × Execution μ) :=
  match t.stage with
  | .locking parcel _ | .sending parcel _ _ => if t.inbox then net.execution t.node parcel else []
  | .acting parcel => net.execution t.node parcel
  | .broadcasting _ _ _ | .polling | .received _ | .returned => []

/-- The part of a broadcast. -/
def ofSerial {α : Type} (serial : Nat) (l : List (Nat × α)) : List α :=
  (l.filter fun p => p.1 = serial).map Prod.snd

/-- What is in flight of all broadcasts. -/
noncomputable def inFlight (s : NodeThreads μ) : List (Nat × Delivery) :=
  net.queued s.shared ++ s.locals.flatMap net.parcels

/-- What is executed or sure to be. -/
def executed (s : NodeThreads μ) : List (Nat × Execution μ) :=
  s.shared.executed ++ s.locals.flatMap net.pending

/-- The state of the network for a broadcast. -/
noncomputable def traffic (serial : Nat) (s : NodeThreads μ) : Traffic μ where
  inFlight := ofSerial serial (net.inFlight s)
  executed := ofSerial serial (net.executed s)

/-! ## What a thread does -/

/-- A bound on the steps that a thread makes before it has its next message. -/
def stepsLeft (t : NodeThread) : Nat :=
  match t.stage with
  | .broadcasting _ _ _ => 2 * (net.peers t.node).length + 5
  | .locking _ _ => 2 * (net.peers t.node).length + 4
  | .sending _ _ targets => 2 * targets.length + 3
  | .acting _ => 1
  | .polling | .received _ | .returned => 0

/-- The node makes a message from the parcel. -/
def Known (nodeId : String) (parcel : Parcel) : Prop :=
  ∃ message, net.messageFactory nodeId parcel.data.command parcel.data.args = some message

/-- What a thread relies on. -/
def InPlace (t : NodeThread) : Prop :=
  t.node ∈ net.nodes ∧
  match t.stage with
  | .broadcasting _ _ _ => t.inbox = false ∧ (net.peers t.node).length < 2 ^ 32
  | .polling | .received _ => t.inbox = true
  | .locking parcel _ => t.inbox = true → net.Known t.node parcel
  | .sending parcel _ targets => (∀ target ∈ targets, target ∈ net.peers t.node) ∧
      (t.inbox = true → net.Known t.node parcel)
  | .acting parcel => t.inbox = true ∧ net.Known t.node parcel
  | .returned => t.inbox = false

/-- The thread has locked the `peers_mutex` of a node. -/
def holdsAt (v : String) (t : NodeThread) : Bool :=
  match t.stage with
  | .sending _ _ _ => t.node = v
  | _ => false

/-- What a step of a thread does to the traffic. -/
inductive Moves (t : NodeThread) (s : NodeMemory μ) (t' : NodeThread) (s' : NodeMemory μ) : Prop
  /-- Messages are where they were, or on their way. -/
  | transfer
      (hp : (net.queued s' ++ net.parcels t').Perm (net.queued s ++ net.parcels t))
      (he : (s'.executed ++ net.pending t').Perm (s.executed ++ net.pending t))
      (hlt : (net.queued s').length + net.stepsLeft t' < (net.queued s).length + net.stepsLeft t)
  /-- The node processes a message. -/
  | process {parcel : Parcel} {sent : List Delivery} {acts : List (Execution μ)}
      (hs : s' = s) (hstage : t.stage = .received parcel)
      (hrun : SynchronousGRPC.inbox t.node (net.peers t.node) (net.messageFactory t.node)
        parcel.data = some (sent, acts))
      (hp : net.parcels t' = sent.map (Prod.mk parcel.serial))
      (he : net.pending t' = acts.map (Prod.mk parcel.serial))
      (hlt : net.stepsLeft t' ≤ 2 * (net.peers t.node).length + 4)

/-- What a step of a thread does. -/
structure Steps (t : NodeThread) (s : NodeMemory μ) (t' : NodeThread) (s' : NodeMemory μ) :
    Prop where
  node : t'.node = t.node
  inbox : t'.inbox = t.inbox
  wf : ∀ v, (s'.incomingMessages v).Holds (s'.incomingMessages v).toList
  moves : net.Moves t s t' s'
  place : net.InPlace t'
  lock : ∀ v, (s'.peersMutex v).toNat + (holdsAt v t).toNat
    = (s.peersMutex v).toNat + (holdsAt v t').toNat

/-- What the next step of a thread may be. -/
def Outcome (t : NodeThread) (s : NodeMemory μ) :
    Except Obstacle (NodeMemory μ × NodeThread) → Prop
  | .ok (s', t') => net.Steps t s t' s'
  | .error .waits => (∃ parcel visited, t.stage = .locking parcel visited ∧
      s.peersMutex t.node = true) ∨
      t.stage = .polling ∧ (s.incomingMessages t.node).toList = []
  | .error .returned => t.stage = .returned
  | .error (.fault _) => ∃ v ∈ net.nodes, ¬ (s.incomingMessages v).Fits

variable {net} {t t' : NodeThread} {s s' : NodeMemory μ} {v w target : String} {parcel : Parcel}
  {q : RequestQueue Parcel} {l : List Parcel}

theorem waiting_setQueue_ne (h : w ≠ v) : waiting (s.setQueue v q) w = waiting s w := by
  rw [waiting, waiting, s.setQueue_ne q h]

theorem waiting_setQueue_self (hq : q.Holds l) : waiting (s.setQueue v q) v
    = l.map fun parcel => (parcel.serial, { recipient := v, data := parcel.data }) := by
  rw [waiting, s.setQueue_self, hq.toList_eq]

/-- The queue of a node among the queues. -/
theorem queued_perm (hv : v ∈ net.nodes) (s : NodeMemory μ) :
    (net.queued s).Perm (waiting s v ++ (net.nodes.erase v).toList.flatMap (waiting s)) := by
  have hlist : net.nodes.toList.Perm (v :: (net.nodes.erase v).toList) := by
    have hinsert := Finset.toList_insert (Finset.notMem_erase v net.nodes)
    rwa [Finset.insert_erase hv] at hinsert
  exact hlist.flatMap_right _

/-- A call that changes one queue. -/
theorem queued_setQueue (hv : v ∈ net.nodes) (hq : q.Holds l) (s : NodeMemory μ) :
    (net.queued (s.setQueue v q)).Perm
      ((l.map fun parcel => (parcel.serial, { recipient := v, data := parcel.data })) ++
        (net.nodes.erase v).toList.flatMap (waiting s)) := by
  refine (queued_perm hv _).trans (.of_eq ?_)
  have hrest : (net.nodes.erase v).toList.flatMap (waiting (s.setQueue v q))
      = (net.nodes.erase v).toList.flatMap (waiting s) :=
    List.flatMap_congr fun w hw =>
      waiting_setQueue_ne (Finset.ne_of_mem_erase (Finset.mem_toList.mp hw))
  rw [waiting_setQueue_self hq, hrest]

/-- **`execute_message` puts a message into the queue of the target.** -/
theorem queued_push (hv : v ∈ net.nodes)
    (hq : q.Holds ((s.incomingMessages v).toList ++ [parcel])) :
    (net.queued (s.setQueue v q)).Perm (net.queued s ++ deliveries parcel [v]) := by
  refine (queued_setQueue hv hq s).trans ?_
  rw [List.map_append, List.append_assoc]
  refine List.Perm.trans ?_ ((queued_perm hv s).append_right _).symm
  rw [List.append_assoc]
  exact List.perm_append_comm.append_left _

/-- **`dequeue` takes a message out of the queue.** -/
theorem queued_pop (hv : v ∈ net.nodes) (hl : (s.incomingMessages v).toList = parcel :: l)
    (hq : q.Holds l) :
    (net.queued s).Perm (deliveries parcel [v] ++ net.queued (s.setQueue v q)) := by
  refine (queued_perm hv s).trans ?_
  rw [waiting, hl, List.map_cons, List.cons_append]
  exact ((queued_setQueue hv hq s).symm.cons _)

/-- A step that only takes the thread on. -/
theorem Steps.of_stage {stage : NodeStage} (wf : ∀ v, (s.incomingMessages v).Holds
      (s.incomingMessages v).toList)
    (hp : net.parcels { t with stage := stage } = net.parcels t)
    (he : net.pending { t with stage := stage } = net.pending t)
    (hlt : net.stepsLeft { t with stage := stage } < net.stepsLeft t)
    (hplace : net.InPlace { t with stage := stage })
    (hlock : ∀ v, holdsAt v { t with stage := stage } = holdsAt v t) :
    net.Steps t s { t with stage := stage } s where
  node := rfl
  inbox := rfl
  wf := wf
  moves := .transfer (.of_eq (by rw [hp])) (.of_eq (by rw [he])) (Nat.add_lt_add_left hlt _)
  place := hplace
  lock v := by rw [hlock]

theorem holds_setQueue (wf : ∀ v, (s.incomingMessages v).Holds (s.incomingMessages v).toList)
    (hq : q.Holds l) : ∀ w, ((s.setQueue v q).incomingMessages w).Holds
      ((s.setQueue v q).incomingMessages w).toList := by
  intro w
  by_cases hw : w = v
  · subst hw
    rw [s.setQueue_self, hq.toList_eq]
    exact hq
  · rw [s.setQueue_ne q hw]
    exact wf w

/-- The next step at the top of the loop. -/
theorem outcome_polling {inbox : Bool} (hv : v ∈ net.nodes) (hinbox : inbox = true)
    (wf : ∀ v, (s.incomingMessages v).Holds (s.incomingMessages v).toList) :
    net.Outcome { node := v, inbox := inbox, stage := .polling } s
      (advance net { node := v, inbox := inbox, stage := .polling } s) := by
  have hwf := wf v
  cases hl : (s.incomingMessages v).toList with
  | nil =>
    rw [hl] at hwf
    simp only [advance, RequestQueue.dequeue_nil hwf, Except.mapError, bind, Except.bind]
    exact .inr ⟨rfl, hl⟩
  | cons parcel l =>
    rw [hl] at hwf
    obtain ⟨q, hrun, hq⟩ := RequestQueue.dequeue_cons hwf
    simp only [advance, hrun, Except.mapError, bind, Except.bind]
    have hpop := queued_pop hv hl hq
    have hlength := hpop.length_eq
    rw [List.length_append] at hlength
    exact
      { node := rfl
        inbox := rfl
        wf := holds_setQueue wf hq
        moves := .transfer
          ((List.append_nil (net.queued s)).symm ▸ (List.perm_append_comm.trans hpop.symm))
          (.refl _) (by
            rw [hlength]
            exact Nat.add_lt_add_right (Nat.lt_add_of_pos_left Nat.zero_lt_one) 0)
        place := ⟨hv, hinbox⟩
        lock := fun w => rfl }

theorem execution_of_known (h : net.Known v parcel) : ∃ message, net.execution v parcel
    = [(parcel.serial, { node := v, message := message, data := parcel.data })] ∧
      net.messageFactory v parcel.data.command parcel.data.args = some message := by
  obtain ⟨message, hm⟩ := h
  exact ⟨message, by rw [execution, hm]; rfl, hm⟩

/-- The step in which a node processes a message. -/
theorem outcome_received {inbox : Bool} (hv : v ∈ net.nodes) (hinbox : inbox = true)
    (wf : ∀ v, (s.incomingMessages v).Holds (s.incomingMessages v).toList)
    (hb : parcel.data.isBroadcast = true) (hk : net.Known v parcel) :
    net.Outcome { node := v, inbox := inbox, stage := .received parcel } s
      (advance net { node := v, inbox := inbox, stage := .received parcel } s) := by
  by_cases hvisited : v ∈ parcel.data.visitedRecipients
  · simp only [advance, hb, if_true, hvisited]
    exact
      { node := rfl
        inbox := rfl
        wf := wf
        moves := .process rfl rfl (inbox_visited hb hvisited) rfl rfl (Nat.zero_le _)
        place := ⟨hv, hinbox⟩
        lock := fun w => rfl }
  · obtain ⟨message, hm⟩ := hk
    simp only [advance, hb, if_true, hvisited, if_false]
    exact
      { node := rfl
        inbox := rfl
        wf := wf
        moves := .process rfl rfl (inbox_new hb hvisited hm)
          (by simp [parcels, deliveries, Function.comp_def])
          (by simp [pending, execution, hinbox, MessageData.addVisitedRecipients, hm])
          (Nat.le_refl _)
        place := ⟨hv, fun _ => ⟨message, hm⟩⟩
        lock := fun w => rfl }

/-- The steps of the loop over the peers. -/
theorem outcome_sending {inbox : Bool} {visited targets : List String} (hv : v ∈ net.nodes)
    (htargets : ∀ target ∈ targets, target ∈ net.peers v)
    (hk : inbox = true → net.Known v parcel)
    (wf : ∀ v, (s.incomingMessages v).Holds (s.incomingMessages v).toList)
    (hlock : s.peersMutex v = true) :
    net.Outcome { node := v, inbox := inbox, stage := .sending parcel visited targets } s
      (advance net { node := v, inbox := inbox, stage := .sending parcel visited targets } s) := by
  cases targets with
  | nil =>
    simp only [advance]
    let t' : NodeThread :=
      { node := v, inbox := inbox, stage := if inbox then .acting parcel else .returned }
    have hmutex : ∀ w, holdsAt w t' = false := fun w => by cases inbox <;> rfl
    exact
      { node := rfl
        inbox := rfl
        wf := wf
        moves := .transfer
          (.of_eq (by cases inbox <;> rfl))
          (.of_eq (by cases inbox <;> rfl))
          (Nat.add_lt_add_left (by cases inbox <;> simp [stepsLeft]) _)
        place := ⟨hv, by
          cases hi : inbox with
          | true => exact ⟨rfl, hk hi⟩
          | false => rfl⟩
        lock := fun w => by
          rw [show holdsAt w _ = false from hmutex w]
          by_cases hw : w = v
          · subst hw
            rw [s.setMutex_self, hlock]
            simp [holdsAt]
          · rw [s.setMutex_ne _ hw]
            simp [holdsAt, Ne.symm hw] }
  | cons target targets =>
    have hrest : ∀ target ∈ targets, target ∈ net.peers v := fun x hx =>
      htargets x (List.mem_cons_of_mem _ hx)
    by_cases hvisited : target ∈ visited
    · simp only [advance, hvisited, not_true, if_false]
      exact .of_stage wf
        (by simp [parcels, hvisited]) rfl (by simp [stepsLeft]) ⟨hv, hrest, hk⟩ fun w => rfl
    · have htarget := net.closed v hv target (htargets target List.mem_cons_self)
      simp only [advance, hvisited, not_false_eq_true, if_true, NodeMemory.executeMessage]
      cases hrun : (s.incomingMessages target).enqueue parcel with
      | error e =>
        simp only [Except.mapError, bind, Except.bind]
        refine ⟨target, htarget, fun hfits => ?_⟩
        obtain ⟨q, hq, -⟩ := RequestQueue.enqueue_spec (wf target) parcel hfits
        rw [hrun] at hq
        cases hq
      | ok q =>
        simp only [Except.mapError, bind, Except.bind]
        have hq := RequestQueue.enqueue_ok (wf target) hrun
        have hpush := queued_push htarget hq
        have hlength := hpush.length_eq
        rw [List.length_append] at hlength
        exact
          { node := rfl
            inbox := rfl
            wf := holds_setQueue wf hq
            moves := .transfer
              ((hpush.append_right _).trans (.of_eq (by
                simp [parcels, deliveries, hvisited])))
              (.refl _) (by
                rw [hlength]
                simp only [deliveries, stepsLeft, List.map_cons, List.map_nil, List.length_cons,
                  List.length_nil]
                omega)
            place := ⟨hv, hrest, hk⟩
            lock := fun w => rfl }

/-- **No step of a thread in place fails, as long as the queues can grow.** -/
theorem outcome (hplace : net.InPlace t)
    (wf : ∀ v, (s.incomingMessages v).Holds (s.incomingMessages v).toList)
    (hlock : ∀ v, holdsAt v t = true → s.peersMutex v = true)
    (hreceived : ∀ parcel, t.stage = .received parcel →
      parcel.data.isBroadcast = true ∧ net.Known t.node parcel) :
    net.Outcome t s (advance net t s) := by
  obtain ⟨v, inbox, stage⟩ := t
  obtain ⟨hv, hstage⟩ := hplace
  cases stage with
  | broadcasting serial command args =>
    obtain ⟨hcaller, hlength⟩ := hstage
    by_cases hnone : UInt32.ofNat (net.peers v).length = 0
    · have hpeers : net.peers v = [] := by
        have hzero := congrArg UInt32.toNat hnone
        rw [UInt32.toNat_ofNat', Nat.mod_eq_of_lt hlength] at hzero
        exact List.eq_nil_of_length_eq_zero hzero
      simp only [advance, hnone, if_true]
      exact .of_stage wf (by simp [parcels, deliveries, hpeers]) rfl (by simp [stepsLeft])
        ⟨hv, hcaller⟩ fun w => rfl
    · simp only [advance, hnone, if_false]
      refine .of_stage wf (by simp [parcels]) ?_ (by simp [stepsLeft]) ⟨hv, fun hi => ?_⟩
        fun w => rfl
      · simp [pending, show inbox = false from hcaller]
      · cases hcaller.symm.trans hi
  | polling => exact outcome_polling hv hstage wf
  | received parcel =>
    obtain ⟨hb, hk⟩ := hreceived parcel rfl
    exact outcome_received hv hstage wf hb hk
  | locking parcel visited =>
    cases hmutex : s.peersMutex v with
    | true =>
      simp only [advance, hmutex, if_true]
      exact .inl ⟨parcel, visited, rfl, hmutex⟩
    | false =>
      simp only [advance, hmutex]
      exact
        { node := rfl
          inbox := rfl
          wf := wf
          moves := .transfer (.refl _) (.refl _) (Nat.add_lt_add_left (by simp [stepsLeft]) _)
          place := ⟨hv, fun _ ht => ht, hstage⟩
          lock := fun w => by
            by_cases hw : w = v
            · subst hw
              simp [hmutex, holdsAt]
            · simp [s.setMutex_ne _ hw, holdsAt, Ne.symm hw] }
  | sending parcel visited targets =>
    exact outcome_sending hv hstage.1 hstage.2 wf (hlock v (by simp [holdsAt]))
  | acting parcel =>
    obtain ⟨hinbox, hk⟩ := hstage
    obtain ⟨message, hexec, hm⟩ := execution_of_known hk
    simp only [advance, hm]
    exact
      { node := rfl
        inbox := rfl
        wf := wf
        moves := .transfer (.refl _) (.of_eq (by simp [pending, hexec]))
          (Nat.add_lt_add_left (by simp [stepsLeft]) _)
        place := ⟨hv, hinbox⟩
        lock := fun w => rfl }
  | returned => exact rfl

end NodeNetwork

end AttentionBroker
