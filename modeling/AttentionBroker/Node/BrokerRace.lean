import AttentionBroker.Node.Broker

/-!
# Calls on a broker at the same time

The calls of the threads of a node take turns on its broker, piece by piece. `add_peer` has two
pieces, and so have `broadcast`, which reads the number of peers before it takes the mutex, and
`send`.

`run_alone` says that the pieces of a call that runs alone are the call, and `advance_moved` what
a piece does.
-/

namespace AttentionBroker

open Infra

/-! ## Threads -/

/-- How far a call is. -/
inductive CallStage where
  | entered
  /-- `add_peer` has inserted the peer. -/
  | inserted
  /-- `broadcast` has read `num_peers`. No step reads `seen`, the peers at that moment. -/
  | sized (numPeers : UInt32) (seen : List String)
  /-- `send` has found its recipient. -/
  | checked
  | returned
  | raised (what : String)
deriving DecidableEq

/-- A thread that makes a call. -/
structure CallThread where
  call : BrokerCall
  stage : CallStage

/-- A broker and the threads that make calls on it. -/
abbrev BrokerRace := Parties Broker CallThread

namespace CallThread

/-- Does a piece of the call. A piece that waits for the mutex does not happen. -/
def proceed (t : CallThread) (piece : BrokerM Unit) (next : CallStage) (b : Broker) :
    Except Halt (Broker × CallThread) :=
  match piece b with
  | .ok _ b => .ok (b, { t with stage := next })
  | .error (.raised what) b => .ok (b, { t with stage := .raised what })
  | .error .blocked _ => .error .blocked

section proceed

variable {t : CallThread} {piece : BrokerM Unit} {next : CallStage} {b b' : Broker}

theorem proceed_ok (h : piece b = .ok () b') :
    t.proceed piece next b = .ok (b', { t with stage := next }) := by
  rw [proceed, h]

theorem proceed_raised {what : String} (h : piece b = .error (.raised what) b') :
    t.proceed piece next b = .ok (b', { t with stage := .raised what }) := by
  rw [proceed, h]

theorem proceed_blocked (h : piece b = .error .blocked b') :
    t.proceed piece next b = .error .blocked := by
  rw [proceed, h]

end proceed

variable {μ : Type} (messageFactory : String → List String → Option μ)

/-- The next piece of a call. -/
def advance (t : CallThread) (b : Broker) : Except Halt (Broker × CallThread) :=
  match t.stage, t.call.operation with
  | .entered, .addPeer peerId => t.proceed (Broker.insertPeer peerId) .inserted b
  | .inserted, .addPeer peerId => t.proceed (Broker.storeStub peerId) .returned b
  | .entered, .broadcast _ _ =>
    if b.numPeers = 0 then .ok (b, { t with stage := .returned })
    else .ok (b, { t with stage := .sized b.numPeers b.peers })
  | .sized numPeers _, .broadcast command args =>
    t.proceed (Broker.broadcastPeers t.call.serial numPeers command args) .returned b
  | .entered, .send _ _ recipient => t.proceed (Broker.checkRecipient recipient) .checked b
  | .checked, .send command args recipient =>
    t.proceed (Broker.deliver t.call.serial command args recipient) .returned b
  | .entered, .inbox data =>
    t.proceed (Broker.inbox messageFactory t.call.serial data) .returned b
  | _, _ => .ok (b, t)

end CallThread

namespace CallThread

/-! ## One piece -/

variable {μ : Type} {messageFactory : String → List String → Option μ} {b b' : Broker}
  {t t' : CallThread} {p : String}

/-- The call has returned or raised. -/
def Ended (t : CallThread) : Prop := t.stage = .returned ∨ ∃ what, t.stage = .raised what

/-- The call is an `add_peer` that has returned. -/
def HasAdded (p : String) (t : CallThread) : Prop :=
  t.call.operation = .addPeer p ∧ t.stage = .returned

/-- The nodes that the next piece of the call sends to. -/
def recipients (t : CallThread) (b : Broker) : List String :=
  match t.stage, t.call.operation with
  | .sized _ _, .broadcast _ _ => b.peers
  | .checked, .send _ _ recipient => [recipient]
  | .entered, .inbox data => if b.Forwards data then b.targets data else []
  | _, _ => []

/-- The calls of `execute_message` in the next piece of the call. -/
def sends (t : CallThread) (b : Broker) : List StubCall :=
  match t.stage, t.call.operation with
  | .sized n _, .broadcast command args =>
    Broker.broadcastCalls b.grpcStub t.call.serial n (b.broadcastData command args) 0 b.peers
  | .checked, .send command args recipient =>
    [Broker.stubCall b.grpcStub recipient (.variable t.call.serial) (b.sendData command args)]
  | .entered, .inbox data => if b.Forwards data then b.forwardCalls t.call.serial data else []
  | _, _ => []

/-- The calls whose next piece sends. -/
inductive Sending (b : Broker) : CallThread → Prop
  | broadcast (serial : Nat) (command : String) (args : List String) (n : UInt32)
      (seen : List String) : Sending b ⟨⟨serial, .broadcast command args⟩, .sized n seen⟩
  | send (serial : Nat) (command : String) (args : List String) (recipient : String) :
      Sending b ⟨⟨serial, .send command args recipient⟩, .checked⟩
  | forward (serial : Nat) {data : MessageData} (hf : b.Forwards data) :
      Sending b ⟨⟨serial, .inbox data⟩, .entered⟩

/-- No other call sends. -/
theorem sending_or_nil (t : CallThread) (b : Broker) :
    Sending b t ∨ t.sends b = [] ∧ t.recipients b = [] := by
  obtain ⟨⟨serial, operation⟩, stage⟩ := t
  match stage, operation with
  | .sized n seen, .broadcast command args => exact .inl (.broadcast ..)
  | .checked, .send command args recipient => exact .inl (.send ..)
  | .entered, .inbox data =>
    by_cases hf : b.Forwards data
    · exact .inl (.forward serial hf)
    · exact .inr ⟨if_neg hf, if_neg hf⟩
  | .entered, .addPeer .. | .entered, .broadcast .. | .entered, .send .. => exact .inr ⟨rfl, rfl⟩
  | .returned, _ | .raised _, _ | .inserted, _ => exact .inr ⟨rfl, rfl⟩
  | .sized .., .addPeer .. | .sized .., .send .. | .sized .., .inbox .. => exact .inr ⟨rfl, rfl⟩
  | .checked, .addPeer .. | .checked, .broadcast .. | .checked, .inbox .. =>
    exact .inr ⟨rfl, rfl⟩

theorem sends_nil (h : ¬ Sending b t) : t.sends b = [] :=
  ((sending_or_nil t b).resolve_left h).1

theorem Sending.of_broadcast {n : UInt32} {seen args : List String} {command : String}
    (hst : t.stage = .sized n seen) (hop : t.call.operation = .broadcast command args) :
    Sending b t := by
  obtain ⟨⟨serial, operation⟩, stage⟩ := t
  obtain rfl : operation = .broadcast command args := hop
  obtain rfl : stage = .sized n seen := hst
  exact .broadcast ..

theorem Sending.of_inbox {data : MessageData} (hst : t.stage = .entered)
    (hop : t.call.operation = .inbox data) (hf : b.Forwards data) : Sending b t := by
  obtain ⟨⟨serial, operation⟩, stage⟩ := t
  obtain rfl : operation = .inbox data := hop
  obtain rfl : stage = .entered := hst
  exact .forward serial hf

theorem not_ended (hreturned : t.stage ≠ .returned) (hraised : ∀ what, t.stage ≠ .raised what) :
    ¬ t.Ended := by
  rintro (h | ⟨what, h⟩)
  · exact hreturned h
  · exact hraised what h

theorem Sending.not_ended (h : Sending b t) : ¬ t.Ended := by
  cases h with
  | broadcast serial command args n seen => exact CallThread.not_ended nofun nofun
  | send serial command args recipient => exact CallThread.not_ended nofun nofun
  | forward serial hf => exact CallThread.not_ended nofun nofun

theorem not_ended_of_sends {e : StubCall} (he : e ∈ t.sends b) : ¬ t.Ended := by
  rcases sending_or_nil t b with h | ⟨hnil, -⟩
  · exact h.not_ended
  · rw [hnil] at he
    cases he

theorem sends_forward {serial : Nat} {data : MessageData} (hf : b.Forwards data) :
    sends ⟨⟨serial, .inbox data⟩, .entered⟩ b = b.forwardCalls serial data := if_pos hf

theorem recipients_forward {serial : Nat} {data : MessageData} (hf : b.Forwards data) :
    recipients ⟨⟨serial, .inbox data⟩, .entered⟩ b = b.targets data := if_pos hf

theorem sends_target (t : CallThread) (b : Broker) :
    (t.sends b).map StubCall.target = t.recipients b := by
  rcases sending_or_nil t b with h | ⟨hsends, hrecipients⟩
  · cases h with
    | broadcast serial command args n seen => exact Broker.broadcastCalls_target ..
    | send serial command args recipient => rfl
    | forward serial hf =>
      rw [sends_forward hf, recipients_forward hf, Broker.forwardCalls, List.map_map]
      exact List.map_id' _
  · rw [hsends, hrecipients]
    rfl

/-- A call of `execute_message` finds the stub that is in the map, and its context is one of the
call that makes it. -/
theorem sends_mem {e : StubCall} (he : e ∈ t.sends b) :
    e.stub = decide (e.target ∈ b.grpcStub) ∧ e.context.serial = t.call.serial := by
  rcases sending_or_nil t b with h | ⟨hsends, -⟩
  · cases h with
    | broadcast serial command args n seen => exact Broker.broadcastCalls_mem e he
    | send serial command args recipient =>
      obtain rfl := List.mem_singleton.mp he
      exact ⟨rfl, rfl⟩
    | forward serial hf =>
      rw [sends_forward hf] at he
      obtain ⟨target, -, rfl⟩ := List.mem_map.mp he
      exact ⟨rfl, rfl⟩
  · rw [hsends] at he
    cases he

/-- What a piece of a call does. -/
structure Moved (b : Broker) (t : CallThread) (b' : Broker) (t' : CallThread) : Prop where
  call : t'.call = t.call
  sent : b'.sent = b.sent ++ t.sends b
  peers : b.peers <:+ b'.peers
  stubs : ∀ p, p ∈ b'.grpcStub ↔
    p ∈ b.grpcStub ∨ t.call.operation = .addPeer p ∧ t.stage = .inserted
  added : ∀ p, HasAdded p t' ↔
    HasAdded p t ∨ t.call.operation = .addPeer p ∧ t.stage = .inserted
  sized : ∀ n seen, t'.stage = .sized n seen →
    t.stage = .sized n seen ∨ n = b.numPeers ∧ seen = b.peers
  ended : t.Ended → t'.Ended
  sender : t.sends b ≠ [] → ¬ t.Ended ∧ t'.Ended

theorem Moved.stay (h : t.sends b = []) (hst : ∀ p, t.call.operation = .addPeer p →
    t.stage ≠ .inserted) : Moved b t b t where
  call := rfl
  sent := by rw [h, List.append_nil]
  peers := List.suffix_refl _
  stubs p := (or_iff_left fun hp => hst p hp.1 hp.2).symm
  added p := (or_iff_left fun hp => hst p hp.1 hp.2).symm
  sized _ _ h := .inl h
  ended := id
  sender hne := absurd h hne

/-- A piece of a call that is no `add_peer`. -/
theorem Moved.send {stage : CallStage} (hop : ∀ p, t.call.operation ≠ .addPeer p)
    (hopen : ¬ t.Ended) (hpeers : b'.peers = b.peers) (hstubs : b'.grpcStub = b.grpcStub)
    (hsent : b'.sent = b.sent ++ t.sends b)
    (hsized : ∀ n seen, stage = .sized n seen → n = b.numPeers ∧ seen = b.peers)
    (hsender : t.sends b ≠ [] → Ended { t with stage := stage }) :
    Moved b t b' { t with stage := stage } where
  call := rfl
  sent := hsent
  peers := hpeers ▸ List.suffix_refl _
  stubs p := by rw [hstubs, or_iff_left fun hp => hop p hp.1]
  added p := iff_of_false (fun hp => hop p hp.1) (fun hp => hp.elim (fun h => hop p h.1)
    fun h => hop p h.1)
  sized n seen h := .inr (hsized n seen h)
  ended he := absurd he hopen
  sender hne := ⟨hopen, hsender hne⟩

/-- A piece ends in one way. -/
theorem Moved.of_ok {r : Except Halt (Broker × CallThread)} {b₁ : Broker} {t₁ : CallThread}
    (hr : r = .ok (b₁, t₁)) (h : r = .ok (b', t')) (hm : Moved b t b₁ t₁) : Moved b t b' t' := by
  obtain ⟨rfl, rfl⟩ := Prod.mk.inj (Except.ok.inj (hr.symm.trans h))
  exact hm

/-- A piece that takes the mutex happens only where that is free. -/
theorem free_of_proceed {piece : BrokerM Unit} {next : CallStage} {x : Unit → BrokerM Unit}
    (hpiece : piece = Broker.lock >>= x) (h : t.proceed piece next b = .ok (b', t')) :
    b.peersMutex = false := by
  cases hm : b.peersMutex with
  | false => rfl
  | true =>
    rw [hpiece, proceed_blocked (Broker.bind_lock_locked hm)] at h
    cases h

theorem not_ended_entered {call : BrokerCall} : ¬ Ended ⟨call, .entered⟩ := not_ended nofun nofun

variable {serial : Nat} {peerId command recipient : String} {args : List String}

/-- `add_peer` inserts the peer. -/
theorem insert_moved (h : proceed ⟨⟨serial, .addPeer peerId⟩, .entered⟩ (Broker.insertPeer peerId)
    .inserted b = .ok (b', t')) : Moved b ⟨⟨serial, .addPeer peerId⟩, .entered⟩ b' t' := by
  have hfree := free_of_proceed rfl h
  refine .of_ok (proceed_ok (Broker.insertPeer_free hfree)) h ?_
  exact
    { call := rfl
      sent := (List.append_nil _).symm
      peers := List.suffix_insert _ _
      stubs := fun p => (or_iff_left nofun).symm
      added := fun p => iff_of_false nofun (fun hp => hp.elim nofun nofun)
      sized := nofun
      ended := fun he => absurd he not_ended_entered
      sender := fun hne => absurd rfl hne }

/-- `add_peer` stores the stub. -/
theorem store_moved (h : proceed ⟨⟨serial, .addPeer peerId⟩, .inserted⟩ (Broker.storeStub peerId)
    .returned b = .ok (b', t')) : Moved b ⟨⟨serial, .addPeer peerId⟩, .inserted⟩ b' t' := by
  refine .of_ok (proceed_ok rfl) h ?_
  exact
    { call := rfl
      sent := (List.append_nil _).symm
      peers := List.suffix_refl _
      stubs := fun p => by
        change p ∈ peerId :: b.grpcStub ↔ _
        rw [List.mem_cons, or_comm, Operation.addPeer.injEq, and_iff_left rfl, eq_comm]
      added := fun p => ⟨fun hp => .inr ⟨hp.1, rfl⟩, fun hp => hp.elim nofun fun hp => ⟨hp.1, rfl⟩⟩
      sized := nofun
      ended := fun _ => .inl rfl
      sender := fun hne => absurd rfl hne }

/-- `send` makes its call. -/
theorem deliver_moved (h : proceed ⟨⟨serial, .send command args recipient⟩, .checked⟩
    (Broker.deliver serial command args recipient) .returned b = .ok (b', t')) :
    Moved b ⟨⟨serial, .send command args recipient⟩, .checked⟩ b' t' :=
  .of_ok (proceed_ok (Broker.deliver_eq ..)) h
    (.send nofun (not_ended nofun nofun) rfl rfl rfl nofun fun _ => .inl rfl)

/-- `send` finds its recipient or raises. -/
theorem check_moved (h : proceed ⟨⟨serial, .send command args recipient⟩, .entered⟩
    (Broker.checkRecipient recipient) .checked b = .ok (b', t')) :
    Moved b ⟨⟨serial, .send command args recipient⟩, .entered⟩ b' t' := by
  have hfree := free_of_proceed rfl h
  by_cases hr : recipient ∈ b.peers
  · refine .of_ok (proceed_ok (Broker.checkRecipient_known hfree hr)) h ?_
    exact .send nofun not_ended_entered rfl rfl (List.append_nil _).symm nofun
      fun hne => absurd rfl hne
  · refine .of_ok (proceed_raised (Broker.checkRecipient_unknown hfree hr)) h ?_
    exact .send nofun not_ended_entered rfl rfl (List.append_nil _).symm nofun
      fun hne => absurd rfl hne

/-- `broadcast` makes its calls. -/
theorem broadcast_moved {n : UInt32} {seen : List String}
    (h : proceed ⟨⟨serial, .broadcast command args⟩, .sized n seen⟩
      (Broker.broadcastPeers serial n command args) .returned b = .ok (b', t')) :
    Moved b ⟨⟨serial, .broadcast command args⟩, .sized n seen⟩ b' t' := by
  have hfree := free_of_proceed rfl h
  refine .of_ok (proceed_ok (Broker.broadcastPeers_free hfree command args)) h ?_
  exact .send nofun (not_ended nofun nofun) rfl rfl rfl nofun fun _ => .inl rfl

/-- The inbox has sent the message on, whether it raises after that or not. -/
theorem inbox_inv {data : MessageData} {next : CallStage}
    (h : t.proceed (Broker.inbox messageFactory serial data) next b = .ok (b', t')) :
    b' = b.withSent (if b.Forwards data then b.forwardCalls serial data else []) ∧
      (t' = { t with stage := next } ∨ ∃ what, t' = { t with stage := .raised what }) := by
  have hmake : ∀ b₁ : Broker,
      t.proceed (Broker.makeMessage messageFactory data) next b₁ = .ok (b', t') →
      b' = b₁ ∧
        (t' = { t with stage := next } ∨ ∃ what, t' = { t with stage := .raised what }) := by
    intro b₁ h
    rw [proceed, Broker.makeMessage_eq] at h
    by_cases hm : (messageFactory data.command data.args).isNone
    · rw [if_pos hm] at h
      obtain ⟨rfl, rfl⟩ := Prod.mk.inj (Except.ok.inj h)
      exact ⟨rfl, .inr ⟨_, rfl⟩⟩
    · rw [if_neg hm] at h
      obtain ⟨rfl, rfl⟩ := Prod.mk.inj (Except.ok.inj h)
      exact ⟨rfl, .inl rfl⟩
  rw [proceed, Broker.inbox_eq] at h
  by_cases hf : b.Forwards data
  · rw [if_pos hf] at h ⊢
    cases hm : b.peersMutex with
    | true =>
      rw [hm, if_pos rfl] at h
      cases h
    | false =>
      rw [hm, if_neg Bool.false_ne_true] at h
      exact hmake _ h
  · rw [if_neg hf] at h ⊢
    rw [Broker.withSent, List.append_nil]
    by_cases hb : data.isBroadcast = true
    · rw [if_pos hb] at h
      obtain ⟨rfl, rfl⟩ := Prod.mk.inj (Except.ok.inj h)
      exact ⟨rfl, .inl rfl⟩
    · rw [if_neg hb] at h
      exact hmake _ h

theorem inbox_moved {data : MessageData} (h : proceed ⟨⟨serial, .inbox data⟩, .entered⟩
    (Broker.inbox messageFactory serial data) .returned b = .ok (b', t')) :
    Moved b ⟨⟨serial, .inbox data⟩, .entered⟩ b' t' := by
  obtain ⟨rfl, hstage⟩ := inbox_inv h
  rcases hstage with rfl | ⟨what, rfl⟩
  · exact .send nofun not_ended_entered rfl rfl rfl nofun fun _ => .inl rfl
  · exact .send nofun not_ended_entered rfl rfl rfl nofun fun _ => .inr ⟨what, rfl⟩

/-- `broadcast` reads the number of peers. -/
theorem size_moved (h : advance messageFactory ⟨⟨serial, .broadcast command args⟩, .entered⟩ b
    = .ok (b', t')) : Moved b ⟨⟨serial, .broadcast command args⟩, .entered⟩ b' t' := by
  by_cases hn : b.numPeers = 0
  · refine .of_ok (if_pos hn) h ?_
    exact .send nofun not_ended_entered rfl rfl (List.append_nil _).symm nofun
      fun hne => absurd rfl hne
  · refine .of_ok (if_neg hn) h ?_
    refine .send nofun not_ended_entered rfl rfl (List.append_nil _).symm ?_
      fun hne => absurd rfl hne
    rintro n seen ⟨⟩
    exact ⟨rfl, rfl⟩

/-- A call that has nothing to do. -/
theorem stay_moved (h : (.ok (b, t) : Except Halt (Broker × CallThread)) = .ok (b', t'))
    (hsends : t.sends b = []) (hst : ∀ p, t.call.operation = .addPeer p → t.stage ≠ .inserted) :
    Moved b t b' t' :=
  .of_ok rfl h (.stay hsends hst)

/-- **What a piece of a call does.** -/
theorem advance_moved (h : t.advance messageFactory b = .ok (b', t')) : Moved b t b' t' := by
  obtain ⟨⟨serial, operation⟩, stage⟩ := t
  match stage, operation with
  | .entered, .addPeer peerId => exact insert_moved h
  | .inserted, .addPeer peerId => exact store_moved h
  | .entered, .broadcast command args => exact size_moved h
  | .sized n seen, .broadcast command args => exact broadcast_moved h
  | .entered, .send command args recipient => exact check_moved h
  | .checked, .send command args recipient => exact deliver_moved h
  | .entered, .inbox data => exact inbox_moved h
  | .returned, _ | .raised _, _ => exact stay_moved h rfl nofun
  | .inserted, .broadcast .. | .inserted, .send .. | .inserted, .inbox .. =>
    exact stay_moved h rfl nofun
  | .sized .., .addPeer .. | .sized .., .send .. | .sized .., .inbox .. =>
    exact stay_moved h rfl nofun
  | .checked, .addPeer .. | .checked, .broadcast .. | .checked, .inbox .. =>
    exact stay_moved h rfl nofun

end CallThread

namespace BrokerRace

/-- The calls on a new broker. -/
def start (nodeId : String) (operations : List Operation) : BrokerRace where
  shared := .new nodeId
  locals := operations.zipIdx.map fun p => { call := ⟨p.2, p.1⟩, stage := .entered }

section alone

variable {μ : Type} {messageFactory : String → List String → Option μ}

/-- A broker with one thread. -/
def single (b : Broker) (call : BrokerCall) (stage : CallStage) : BrokerRace :=
  { shared := b, locals := [⟨call, stage⟩] }

/-- The end of a call that runs alone. -/
def alone (call : BrokerCall) : EStateM.Result Halt Broker Unit → Option BrokerRace
  | .ok _ b => some (single b call .returned)
  | .error (.raised what) b => some (single b call (.raised what))
  | .error .blocked _ => none

theorem single_step {b b' : Broker} {call : BrokerCall} {stage stage' : CallStage}
    (h : CallThread.advance messageFactory ⟨call, stage⟩ b = .ok (b', ⟨call, stage'⟩)) :
    (single b call stage).step (CallThread.advance messageFactory) 0
      = some (single b' call stage') :=
  Parties.step_of_turn (Parties.turn_ok rfl h)

theorem single_blocked {b : Broker} {call : BrokerCall} {stage : CallStage} {e : Halt}
    {schedule : List Nat} (h : CallThread.advance messageFactory ⟨call, stage⟩ b = .error e) :
    run (Parties.step (CallThread.advance messageFactory)) (single b call stage) (0 :: schedule)
      = none := by
  rw [run, Parties.step, Parties.turn_error rfl h]
  rfl

/-- Two pieces of a call that runs alone. -/
theorem single_run {b b₁ b₂ : Broker} {call : BrokerCall} {stage stage₂ : CallStage}
    (stage₁ : CallStage)
    (h₁ : CallThread.advance messageFactory ⟨call, stage⟩ b = .ok (b₁, ⟨call, stage₁⟩))
    (h₂ : CallThread.advance messageFactory ⟨call, stage₁⟩ b₁ = .ok (b₂, ⟨call, stage₂⟩)) :
    run (Parties.step (CallThread.advance messageFactory)) (single b call stage) [0, 0]
      = some (single b₂ call stage₂) := by
  rw [run_of_step (single_step h₁), run_of_step (single_step h₂)]
  rfl

/-- **The pieces of a call that runs alone are the call.** -/
theorem run_alone (messageFactory : String → List String → Option μ) (b : Broker)
    (call : BrokerCall) :
    run (Parties.step (CallThread.advance messageFactory)) (single b call .entered) [0, 0]
      = alone call (call.run messageFactory b) := by
  obtain ⟨serial, operation⟩ := call
  cases operation with
  | addPeer peerId =>
    change _ = alone _ (Broker.addPeer peerId b)
    rw [Broker.addPeer_eq]
    cases h : b.peersMutex with
    | true => exact single_blocked (CallThread.proceed_blocked (Broker.bind_lock_locked h))
    | false => exact single_run .inserted (CallThread.proceed_ok (Broker.insertPeer_free h)) rfl
  | broadcast command args =>
    change _ = alone _ (Broker.broadcast serial command args b)
    rw [Broker.broadcast_eq]
    by_cases hn : b.numPeers = 0
    · rw [if_pos hn]
      exact single_run .returned (if_pos hn) rfl
    · rw [if_neg hn]
      have hsized :
          CallThread.advance messageFactory ⟨⟨serial, .broadcast command args⟩, .entered⟩ b
            = .ok (b, ⟨⟨serial, .broadcast command args⟩, .sized b.numPeers b.peers⟩) := if_neg hn
      cases h : b.peersMutex with
      | true =>
        rw [run_of_step (single_step hsized)]
        exact single_blocked (CallThread.proceed_blocked (Broker.bind_lock_locked h))
      | false =>
        refine single_run _ hsized (CallThread.proceed_ok ?_)
        exact Broker.broadcastPeers_free h command args
  | send command args recipient =>
    change _ = alone _ (Broker.send serial command args recipient b)
    rw [Broker.send_eq]
    cases h : b.peersMutex with
    | true => exact single_blocked (CallThread.proceed_blocked (Broker.bind_lock_locked h))
    | false =>
      by_cases hr : recipient ∈ b.peers
      · rw [if_neg Bool.false_ne_true, if_pos hr]
        exact single_run .checked (CallThread.proceed_ok (Broker.checkRecipient_known h hr)) rfl
      · rw [if_neg Bool.false_ne_true, if_neg hr]
        exact single_run (.raised _)
          (CallThread.proceed_raised (Broker.checkRecipient_unknown h hr)) rfl
  | inbox data =>
    change _ = alone _ (Broker.inbox messageFactory serial data b)
    match hrun : Broker.inbox messageFactory serial data b with
    | .ok _ b' => exact single_run .returned (CallThread.proceed_ok hrun) rfl
    | .error (.raised what) b' =>
      exact single_run (.raised what) (CallThread.proceed_raised hrun) rfl
    | .error .blocked b' => exact single_blocked (CallThread.proceed_blocked hrun)

end alone

end BrokerRace

end AttentionBroker
