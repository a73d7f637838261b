import AttentionBroker.Node.Broker

/-!
# A broker after a failed `send`

`send` raises for an unknown recipient before it has released the mutex of the peers, and every
later call that takes the mutex waits for ever. An inbox thread raises for a message that the
factory of the host node does not know, and that ends the process. `usable_iff` says that these are
the only ways in which complete calls, one after the other, can make a broker unusable.
-/

namespace AttentionBroker

open Infra

namespace BrokerCall

variable {μ : Type} {messageFactory : String → List String → Option μ} {b b' : Broker}
  {call : BrokerCall}

/-- A call neither waits for ever nor leaves the broker unusable, and sends what it can. -/
structure Survives (messageFactory : String → List String → Option μ) (b : Broker)
    (call : BrokerCall) : Prop where
  /-- The call returns, or raises what somebody catches. -/
  ends : ∃ b', call.step messageFactory b = some b'
  /-- A call that raises leaves the mutex free and the peers as they are. -/
  raised : ∀ what b', call.run messageFactory b = .error (.raised what) b' →
    b'.peersMutex = false ∧ b'.peers = b.peers
  /-- A `send` to a peer is delivered. -/
  delivered : ∀ command args recipient, call.operation = .send command args recipient →
    recipient ∈ b.peers → ∃ b', call.run messageFactory b = .ok () b' ∧
      b'.sent = b.sent ++
        [{ target := recipient
           stub := true
           context := .variable call.serial
           data := b.sendData command args }]

/-- A `send` goes to a peer. -/
def ToPeer (b : Broker) (call : BrokerCall) : Prop :=
  ∀ command args recipient, call.operation = .send command args recipient → recipient ∈ b.peers

/-- The factory knows the message of an inbox call, or the node has seen it and drops it. -/
def Recognised (messageFactory : String → List String → Option μ) (nodeId : String)
    (call : BrokerCall) : Prop :=
  ∀ data, call.operation = .inbox data →
    (messageFactory data.command data.args).isSome ∨
      data.isBroadcast = true ∧ nodeId ∈ data.visitedRecipients

/-- The mutex is free and every peer has a stub. -/
structure Ready (b : Broker) : Prop where
  free : b.peersMutex = false
  stubs : ∀ p ∈ b.peers, p ∈ b.grpcStub

/-! ## One call -/

/-- What a call that ends does to the broker. -/
inductive Ends (b : Broker) (call : BrokerCall) : Broker → Prop
  | added {p : String} (hop : call.operation = .addPeer p) :
      Ends b call { b.withPeer p with grpcStub := p :: b.grpcStub }
  | sent (calls : List StubCall) (hop : ∀ p, call.operation ≠ .addPeer p) :
      Ends b call (b.withSent calls)
  | failed (hpeer : ¬ ToPeer b call) : Ends b call { b with peersMutex := true }

theorem withSent_nil (b : Broker) : b.withSent [] = b := by
  rw [Broker.withSent, List.append_nil]

/-- What is known of a call by how it ends. It waits for ever only for a mutex that is locked. -/
def Outcome (b : Broker) (call : BrokerCall) : EStateM.Result Halt Broker Unit → Prop
  | .ok _ b' => Ends b call b' ∧ ToPeer b call
  | .error (.raised _) b' => Ends b call b' ∧ b'.peers = b.peers
  | .error .blocked _ => b.peersMutex = true

theorem Ends.unchanged (hop : ∀ p, call.operation ≠ .addPeer p) : Ends b call b := by
  have h := Ends.sent (b := b) [] hop
  rwa [withSent_nil] at h

theorem makeMessage_outcome {serial : Nat} {data : MessageData} {b₁ : Broker}
    (h : Ends b ⟨serial, .inbox data⟩ b₁) (hp : b₁.peers = b.peers) :
    Outcome b ⟨serial, .inbox data⟩ (Broker.makeMessage messageFactory data b₁) := by
  rw [Broker.makeMessage_eq]
  split
  · exact ⟨h, hp⟩
  · exact ⟨h, nofun⟩

/-- **How a call ends.** -/
theorem run_outcome (messageFactory : String → List String → Option μ) (b : Broker)
    (call : BrokerCall) : Outcome b call (call.run messageFactory b) := by
  obtain ⟨serial, operation⟩ := call
  cases operation with
  | addPeer peerId =>
    change Outcome b _ (Broker.addPeer peerId b)
    rw [Broker.addPeer_eq]
    cases h : b.peersMutex with
    | true => exact h
    | false => exact ⟨.added rfl, nofun⟩
  | broadcast command args =>
    change Outcome b _ (Broker.broadcast serial command args b)
    rw [Broker.broadcast_eq]
    split
    · exact ⟨.unchanged nofun, nofun⟩
    · cases h : b.peersMutex with
      | true => exact h
      | false => exact ⟨.sent _ nofun, nofun⟩
  | send command args recipient =>
    change Outcome b _ (Broker.send serial command args recipient b)
    rw [Broker.send_eq]
    cases h : b.peersMutex with
    | true => exact h
    | false =>
      by_cases hr : recipient ∈ b.peers
      · rw [if_neg Bool.false_ne_true, if_pos hr]
        refine ⟨.sent _ nofun, ?_⟩
        rintro _ _ _ ⟨⟩
        exact hr
      · rw [if_neg Bool.false_ne_true, if_neg hr]
        exact ⟨.failed fun hpeer => hr (hpeer command args recipient rfl), rfl⟩
  | inbox data =>
    change Outcome b _ (Broker.inbox messageFactory serial data b)
    rw [Broker.inbox_eq]
    split
    · cases h : b.peersMutex with
      | true => exact h
      | false => exact makeMessage_outcome (.sent _ nofun) rfl
    · split
      · exact ⟨.unchanged nofun, nofun⟩
      · exact makeMessage_outcome (.unchanged nofun) rfl

theorem step_ends (h : call.step messageFactory b = some b') : Ends b call b' := by
  have hout := run_outcome messageFactory b call
  rw [step] at h
  match hrun : call.run messageFactory b with
  | .ok _ b₁ =>
    rw [hrun] at h hout
    obtain rfl := Option.some.inj h
    exact hout.1
  | .error (.raised _) b₁ =>
    rw [hrun] at h hout
    obtain ⟨-, hsome⟩ := Option.ite_none_right_eq_some.mp h
    obtain rfl := Option.some.inj hsome
    exact hout.1
  | .error .blocked _ =>
    rw [hrun] at h
    cases h

/-- The peers are those that have been added. -/
theorem Ends.mem_peers (h : Ends b call b') (p : String) :
    p ∈ b'.peers ↔ p ∈ b.peers ∨ call.operation = .addPeer p := by
  cases h with
  | @added q hop =>
    rw [hop]
    change p ∈ b.peers.insert q ↔ _
    rw [List.mem_insert_iff, Operation.addPeer.injEq, or_comm, eq_comm]
  | sent calls hop => exact (or_iff_left (hop p)).symm
  | failed hpeer =>
    refine (or_iff_left fun hop => hpeer ?_).symm
    intro command args recipient hsend
    rw [hop] at hsend
    cases hsend

theorem Ends.nodeId (h : Ends b call b') : b'.nodeId = b.nodeId := by
  cases h with
  | added _ => rfl
  | sent _ _ => rfl
  | failed _ => rfl

/-- A broker stays ready as long as each `send` goes to a peer. -/
theorem Ends.ready (h : Ends b call b') (hb : Ready b) (hpeer : ToPeer b call) : Ready b' := by
  cases h with
  | @added q hop =>
    refine ⟨hb.free, fun p hp => ?_⟩
    rcases List.mem_insert_iff.mp hp with rfl | hp
    · exact List.mem_cons_self ..
    · exact List.mem_cons_of_mem _ (hb.stubs p hp)
  | sent calls hop => exact ⟨hb.free, hb.stubs⟩
  | failed hunknown => exact absurd hpeer hunknown

theorem run_send (hb : Ready b) {serial : Nat} {args : List String} {command recipient : String}
    (hr : recipient ∈ b.peers) :
    run messageFactory ⟨serial, .send command args recipient⟩ b =
      .ok () (b.withSent
        [{ target := recipient
           stub := true
           context := .variable serial
           data := b.sendData command args }]) := by
  have hstub : decide (recipient ∈ b.grpcStub) = true := decide_eq_true (hb.stubs recipient hr)
  change Broker.send serial command args recipient b = _
  rw [Broker.send_eq, hb.free, if_neg Bool.false_ne_true, if_pos hr, Broker.stubCall, hstub]

theorem run_send_unknown (hb : Ready b) {serial : Nat} {args : List String}
    {command recipient : String} (hr : recipient ∉ b.peers) :
    run messageFactory ⟨serial, .send command args recipient⟩ b =
      .error (.raised ("Unknown peer: " ++ recipient)) { b with peersMutex := true } := by
  change Broker.send serial command args recipient b = _
  rw [Broker.send_eq, hb.free, if_neg Bool.false_ne_true, if_neg hr]

/-- **An inbox call raises if and only if its message is not recognised.** -/
theorem run_inbox_iff (hb : Ready b) (serial : Nat) (data : MessageData) :
    (∃ b', run messageFactory ⟨serial, .inbox data⟩ b = .ok () b') ↔
      Recognised messageFactory b.nodeId ⟨serial, .inbox data⟩ := by
  have hmake : ∀ b₁ : Broker, (∃ b', Broker.makeMessage messageFactory data b₁ = .ok () b') ↔
      (messageFactory data.command data.args).isSome := by
    intro b₁
    rw [Broker.makeMessage_eq]
    cases messageFactory data.command data.args with
    | none => simp
    | some m => simp
  have hrec : Recognised messageFactory b.nodeId ⟨serial, .inbox data⟩ ↔
      (messageFactory data.command data.args).isSome ∨
        data.isBroadcast = true ∧ b.nodeId ∈ data.visitedRecipients := by
    refine ⟨fun h => h data rfl, ?_⟩
    rintro h _ ⟨⟩
    exact h
  change (∃ b', Broker.inbox messageFactory serial data b = .ok () b') ↔ _
  rw [hrec, Broker.inbox_eq, hb.free, if_neg Bool.false_ne_true]
  by_cases hf : b.Forwards data
  · rw [if_pos hf, hmake]
    exact (or_iff_left fun hdrop => hf.2 hdrop.2).symm
  · rw [if_neg hf]
    by_cases hcast : data.isBroadcast = true
    · have hseen : b.nodeId ∈ data.visitedRecipients := by
        by_contra hnew
        exact hf ⟨hcast, hnew⟩
      rw [if_pos hcast]
      exact iff_of_true ⟨b, rfl⟩ (.inr ⟨hcast, hseen⟩)
    · rw [if_neg hcast, hmake]
      exact (or_iff_left fun hdrop => hcast hdrop.1).symm

/-- A step is possible unless a mutex is waited for or nobody catches what is raised. -/
theorem step_of_ready (hb : Ready b) (h : Recognised messageFactory b.nodeId call) :
    ∃ b', call.step messageFactory b = some b' := by
  have hout := run_outcome messageFactory b call
  rw [step]
  match hrun : call.run messageFactory b with
  | .ok _ b' => exact ⟨b', rfl⟩
  | .error .blocked _ =>
    rw [hrun] at hout
    exact absurd (hb.free.symm.trans hout) Bool.false_ne_true
  | .error (.raised _) b' =>
    refine ⟨b', if_pos ?_⟩
    obtain ⟨serial, operation⟩ := call
    cases operation with
    | inbox data =>
      obtain ⟨b₁, hok⟩ := (run_inbox_iff hb serial data).mpr h
      rw [hrun] at hok
      cases hok
    | _ => trivial

/--
**A call survives if and only if it does not send to a node that is no peer** and the inbox knows
its message.
-/
theorem survives_iff (hb : Ready b) :
    Survives messageFactory b call ↔ ToPeer b call ∧ Recognised messageFactory b.nodeId call := by
  constructor
  · intro h
    refine ⟨fun command args recipient hop => ?_, fun data hop => ?_⟩
    · by_contra hr
      obtain ⟨serial, operation⟩ := call
      obtain rfl : operation = .send command args recipient := hop
      have hlocked := (h.raised _ _ (run_send_unknown hb hr)).1
      cases hlocked
    · obtain ⟨serial, operation⟩ := call
      obtain rfl : operation = .inbox data := hop
      obtain ⟨b', hstep⟩ := h.ends
      refine (run_inbox_iff hb serial data).mp ?_ data rfl
      rw [step] at hstep
      match hrun : run messageFactory ⟨serial, .inbox data⟩ b with
      | .ok _ b₁ => exact ⟨b₁, rfl⟩
      | .error (.raised _) b₁ =>
        rw [hrun] at hstep
        exact (Option.ite_none_right_eq_some.mp hstep).1.elim
      | .error .blocked _ =>
        rw [hrun] at hstep
        cases hstep
  · rintro ⟨hpeer, hrec⟩
    refine ⟨step_of_ready hb hrec, fun what b' hraised => ?_, ?_⟩
    · have hout := run_outcome messageFactory b call
      rw [hraised] at hout
      exact ⟨(hout.1.ready hb hpeer).free, hout.2⟩
    · intro command args recipient hop hr
      obtain ⟨serial, operation⟩ := call
      obtain rfl : operation = .send command args recipient := hop
      exact ⟨_, run_send hb hr, rfl⟩

/-! ## Sequences of calls -/

variable {nodeId : String}

/-- Each `send` of the sequence goes to a node that an earlier `add_peer` has added. -/
def SendsToAdded (calls : List BrokerCall) : Prop :=
  ∀ pre call post, calls = pre ++ call :: post → ∀ command args recipient,
    call.operation = .send command args recipient → ∃ c ∈ pre, c.operation = .addPeer recipient

theorem mem_peers_run : ∀ {calls : List BrokerCall} {b b' : Broker},
    Infra.run (step messageFactory) b calls = some b' → ∀ p,
      p ∈ b'.peers ↔ p ∈ b.peers ∨ ∃ c ∈ calls, c.operation = .addPeer p := by
  intro calls
  induction calls with
  | nil =>
    intro b b' hrun p
    obtain rfl := Option.some.inj hrun
    simp
  | cons call calls ih =>
    intro b b' hrun p
    obtain ⟨b₁, h₁, hrest⟩ := run_cons hrun
    rw [ih hrest p, (step_ends h₁).mem_peers p]
    simp [or_assoc]

theorem ready_new (nodeId : String) : Ready (.new nodeId) := ⟨rfl, nofun⟩

/-- What a broker stays as long as it is usable. -/
def Usable (nodeId : String) (b : Broker) : Prop := Ready b ∧ b.nodeId = nodeId

theorem usable_new (nodeId : String) : Usable nodeId (.new nodeId) := ⟨ready_new nodeId, rfl⟩

theorem Usable.step (hb : Usable nodeId b) (hpeer : ToPeer b call)
    (hrec : Recognised messageFactory nodeId call) :
    ∃ b', call.step messageFactory b = some b' ∧ Usable nodeId b' := by
  obtain ⟨b', h'⟩ := step_of_ready hb.1 (hb.2.symm ▸ hrec)
  exact ⟨b', h', (step_ends h').ready hb.1 hpeer, (step_ends h').nodeId.trans hb.2⟩

theorem sendsToAdded_iff (messageFactory : String → List String → Option μ) (nodeId : String)
    (calls : List BrokerCall) :
    AllSteps (step messageFactory) (fun b call => ToPeer b call ∧
        Recognised messageFactory nodeId call) (.new nodeId) calls ↔
      SendsToAdded calls ∧ ∀ call ∈ calls, Recognised messageFactory nodeId call := by
  constructor
  · intro h
    have hbefore : ∀ pre call post, calls = pre ++ call :: post →
        ∃ b, Infra.run (step messageFactory) (.new nodeId) pre = some b ∧ ToPeer b call ∧
          Recognised messageFactory nodeId call := by
      rintro pre call post rfl
      obtain ⟨hpre, hpost⟩ := allSteps_append.mp h
      obtain ⟨b, hrun, -⟩ := run_total (Usable nodeId)
        (fun b call hb hok => hb.step hok.1 hok.2) pre _ hpre (usable_new nodeId)
      exact ⟨b, hrun, (hpost b hrun).1⟩
    refine ⟨fun pre call post heq command args recipient hop => ?_, fun call hmem => ?_⟩
    · obtain ⟨b, hrun, hpeer, -⟩ := hbefore pre call post heq
      exact ((mem_peers_run hrun recipient).mp (hpeer command args recipient hop)).resolve_left
        List.not_mem_nil
    · obtain ⟨pre, post, heq⟩ := List.append_of_mem hmem
      obtain ⟨-, -, -, hrec⟩ := hbefore pre call post heq
      exact hrec
  · rintro ⟨hsends, hrec⟩
    refine allSteps_iff_split.mpr fun pre call post heq b hrun => ⟨?_, hrec call (by simp [heq])⟩
    intro command args recipient hop
    exact (mem_peers_run hrun recipient).mpr
      (.inr (hsends pre call post heq command args recipient hop))

/--
**A broker stays usable through a sequence of calls if and only if no `send` fails in it** and the
inbox knows its messages.

Each call of the sequence is complete before the next one.
-/
theorem usable_iff (messageFactory : String → List String → Option μ) (nodeId : String)
    (calls : List BrokerCall) :
    AllSteps (step messageFactory) (Survives messageFactory) (.new nodeId) calls ↔
      SendsToAdded calls ∧ ∀ call ∈ calls, Recognised messageFactory nodeId call := by
  have hsurvives : ∀ b call, Usable nodeId b → (Survives messageFactory b call ↔
      ToPeer b call ∧ Recognised messageFactory nodeId call) := by
    intro b call hb
    rw [survives_iff hb.1, hb.2]
  have husable : ∀ b (call : BrokerCall) b', Usable nodeId b → Survives messageFactory b call →
      call.step messageFactory b = some b' → Usable nodeId b' := by
    intro b call b' hb hs h
    obtain ⟨hpeer, hrec⟩ := (hsurvives b call hb).mp hs
    obtain ⟨b₁, h₁, hb₁⟩ := hb.step hpeer hrec
    exact Option.some.inj (h₁.symm.trans h) ▸ hb₁
  rw [AllSteps.congr (Usable nodeId) hsurvives husable calls _ (usable_new nodeId)]
  exact sendsToAdded_iff messageFactory nodeId calls

/-- A `send` of the command `"c"`. -/
def sendTo (serial : Nat) (recipient : String) : BrokerCall :=
  ⟨serial, .send "c" [] recipient⟩

/--
A broker that is lost.

The first `send` raises, since `"b"` is not a peer, and leaves the mutex locked. The second one,
to the peer `"a"`, waits for ever.
-/
theorem send_locks :
    ∃ b b', Infra.run (step oneMessage) (.new "n") [⟨0, .addPeer "a"⟩] = some b ∧
      run oneMessage (sendTo 1 "b") b = .error (.raised "Unknown peer: b") b' ∧
      b'.peersMutex = true ∧ "a" ∈ b'.peers ∧
      run oneMessage (sendTo 2 "a") b' = .error .blocked b' ∧
      step oneMessage b' (sendTo 2 "a") = none :=
  ⟨_, _, rfl, rfl, rfl, List.mem_singleton_self "a", rfl, rfl⟩

end BrokerCall

end AttentionBroker
