import AttentionBroker.Node.BrokerRace

/-!
# Peers that join during other calls

`add_peer` publishes a peer before it has a stub, and `broadcast` sizes its arrays before it takes
the mutex. Each of the main results says when, over a whole run, the calls of `execute_message` are
as they should be: on a stub that is there (`stubs_iff`), with a cursor inside the arrays
(`cursors_iff`), and with a context of their own (`contexts_iff`).
-/

namespace AttentionBroker

open Infra

namespace BrokerRace

variable {μ : Type} {messageFactory : String → List String → Option μ} {s s' : BrokerRace}
  {i : Nat} {t t' : CallThread} {b b' : Broker}

/-! ## All pieces -/

/-- What every state satisfies. -/
structure Kept (s : BrokerRace) : Prop where
  /-- A stub is there if and only if an `add_peer` has returned. -/
  stubs : ∀ p, p ∈ s.shared.grpcStub ↔ ∃ t ∈ s.locals, t.HasAdded p
  /-- The peers have only become more since a broadcast has read their number. -/
  sized : ∀ t ∈ s.locals, ∀ n seen, t.stage = .sized n seen →
    n = UInt32.ofNat seen.length ∧ seen <:+ s.shared.peers
  /-- Each call has its own variables. -/
  serials : (s.locals.map (·.call.serial)).Nodup
  /-- The contexts in use are of calls that have ended. -/
  senders : ∀ e ∈ s.shared.sent, ∃ t ∈ s.locals, t.Ended ∧ t.call.serial = e.context.serial

theorem kept_start (nodeId : String) (operations : List Operation) :
    Kept (start nodeId operations) := by
  refine ⟨fun p => iff_of_false List.not_mem_nil ?_, ?_, ?_, nofun⟩
  · rintro ⟨t, ht, hadded⟩
    obtain ⟨q, -, rfl⟩ := List.mem_map.mp ht
    cases hadded.2
  · intro t ht n seen hst
    obtain ⟨q, -, rfl⟩ := List.mem_map.mp ht
    cases hst
  · have hserials : (start nodeId operations).locals.map (·.call.serial)
        = operations.zipIdx.map Prod.snd := by
      rw [start, List.map_map]
      rfl
    rw [hserials, List.zipIdx_map_snd]
    exact List.nodup_range'

/-- **Every piece keeps the invariant.** -/
theorem Kept.move (hs : Kept s) (ht : s.locals[i]? = some t) (hm : t.Moved s.shared b' t') :
    Kept { shared := b', locals := s.locals.set i t' } := by
  refine ⟨fun p => ?_, ?_, ?_, fun e he => ?_⟩
  · have hlocals := Parties.exists_locals ht (P := CallThread.HasAdded p)
    rw [hm.stubs, hs.stubs, hlocals, Parties.exists_set ht, hm.added, or_right_comm]
  · refine Parties.forall_set (fun x hx n seen hst => ?_) fun n seen hst => ?_
    · obtain ⟨hn, hseen⟩ := hs.sized x hx n seen hst
      exact ⟨hn, hseen.trans hm.peers⟩
    · rcases hm.sized n seen hst with hold | ⟨rfl, rfl⟩
      · obtain ⟨hn, hseen⟩ := hs.sized t (Parties.mem_of_get ht) n seen hold
        exact ⟨hn, hseen.trans hm.peers⟩
      · exact ⟨rfl, hm.peers⟩
  · have hserials : (s.locals.set i t').map (·.call.serial) = s.locals.map (·.call.serial) := by
      obtain ⟨hi, rfl⟩ := List.getElem?_eq_some_iff.mp ht
      rw [List.map_set, hm.call, ← List.map_set, List.set_getElem_self]
    rw [hserials]
    exact hs.serials
  · rw [Parties.exists_set ht]
    rcases List.mem_append.mp (hm.sent ▸ he) with hold | hnew
    · rcases (Parties.exists_locals ht).mp (hs.senders e hold) with ⟨hended, hserial⟩ | hothers
      · exact .inl ⟨hm.ended hended, hm.call ▸ hserial⟩
      · exact .inr hothers
    · have hended := (hm.sender (List.ne_nil_of_mem hnew)).2
      exact .inl ⟨hended, hm.call ▸ (CallThread.sends_mem hnew).2.symm⟩

/--
**What the log of a run has to satisfy.**

`Good` is a property of the log, which a piece of a call keeps exactly if it meets `Ok`.
-/
theorem log_iff (Good : List StubCall → Prop) {Ok : BrokerRace → CallThread → Prop}
    (hgood : ∀ (s : BrokerRace) (i : Nat) t, Kept s → s.locals[i]? = some t →
      (Good (s.shared.sent ++ t.sends s.shared) ↔ Good s.shared.sent ∧ Ok s t))
    (hnil : Good []) {nodeId : String} {operations : List Operation} {schedule : List Nat}
    (hrun : run (Parties.step (CallThread.advance messageFactory)) (start nodeId operations)
      schedule = some s) :
    Good s.shared.sent ↔
      AllSteps (Parties.step (CallThread.advance messageFactory))
        (fun s i => ∀ t ∈ s.locals[i]?, Ok s t) (start nodeId operations) schedule := by
  have hstep : ∀ (s : BrokerRace) i s', Kept s →
      s.step (CallThread.advance messageFactory) i = some s' →
      Kept s' ∧ (Good s'.shared.sent ↔ Good s.shared.sent ∧ ∀ t ∈ s.locals[i]?, Ok s t) := by
    intro s i s' hs h
    rcases Parties.step_cases h with ⟨hnone, rfl⟩ | ⟨t, b', t', ht, ha, rfl⟩
    · exact ⟨hs, by simp [hnone]⟩
    · have hm := CallThread.advance_moved ha
      refine ⟨hs.move ht hm, ?_⟩
      have hsent : b'.sent = s.shared.sent ++ t.sends s.shared := hm.sent
      rw [hsent, hgood s i t hs ht, ht]
      simp
  obtain ⟨-, hiff⟩ := allSteps_iff Kept hstep schedule _ s hrun (kept_start nodeId operations)
  rw [hiff]
  exact and_iff_right hnil

/-! ## Stubs -/

/-- An `add_peer` has returned for each node that the next piece of the call sends to. -/
def StubsStored (s : BrokerRace) (t : CallThread) : Prop :=
  ∀ p ∈ t.recipients s.shared, ∃ t' ∈ s.locals, t'.HasAdded p

/--
**No call goes through a missing stub if and only if every `add_peer` is complete when its peer is
sent to.**
-/
theorem stubs_iff {nodeId : String} {operations : List Operation} {schedule : List Nat}
    (hrun : run (Parties.step (CallThread.advance messageFactory)) (start nodeId operations)
      schedule = some s) :
    (∀ e ∈ s.shared.sent, e.stub = true) ↔
      AllSteps (Parties.step (CallThread.advance messageFactory))
        (fun s i => ∀ t ∈ s.locals[i]?, StubsStored s t) (start nodeId operations) schedule := by
  refine log_iff (fun sent => ∀ e ∈ sent, e.stub = true) ?_ nofun hrun
  intro s i t hs ht
  rw [List.forall_mem_append]
  refine and_congr_right fun _ => ?_
  simp only [StubsStored, ← hs.stubs, ← CallThread.sends_target, List.forall_mem_map]
  refine forall₂_congr fun e he => ?_
  rw [(CallThread.sends_mem he).1, decide_eq_true_iff]

/-- A peer, a broadcast and a message to the peer. -/
def threeCalls : BrokerRace := start "n" [.addPeer "a", .broadcast "c" [], .send "c" [] "a"]

/-- One call after the other. -/
def inTurn : List Nat := [0, 0, 1, 1, 2, 2]

theorem stubs_iff_inTurn :
    ∃ s, run (Parties.step (CallThread.advance oneMessage)) threeCalls inTurn = some s ∧
      ((∀ e ∈ s.shared.sent, e.stub = true) ↔
        AllSteps (Parties.step (CallThread.advance oneMessage))
          (fun s i => ∀ t ∈ s.locals[i]?, StubsStored s t) threeCalls inTurn) :=
  ⟨_, rfl, stubs_iff rfl⟩

/--
A peer without a stub.

The broadcast comes between the two pieces of `add_peer`.
-/
theorem stub_missing :
    ∃ s e, run (Parties.step (CallThread.advance oneMessage))
        (start "n" [.addPeer "a", .broadcast "c" []]) [0, 1, 1] = some s ∧
      e ∈ s.shared.sent ∧ e.target = "a" ∧ e.stub = false :=
  ⟨_, _, rfl, List.mem_singleton_self _, rfl, rfl⟩

/-! ## Cursors -/

/-- The peers are those that the broadcast has counted, and an `unsigned int` can count them. -/
def SameSize (s : BrokerRace) (t : CallThread) : Prop :=
  ∀ n seen command args, t.stage = .sized n seen → t.call.operation = .broadcast command args →
    s.shared.peers = seen ∧ seen.length < 2 ^ 32

/-- A cursor that runs over a list stays below a bound if and only if the list is no longer. -/
theorem cursor_lt_iff {n : UInt32} {m : Nat} :
    (∀ k < m, UInt32.ofNat k < n) ↔ m ≤ n.toNat := by
  constructor
  · intro h
    by_contra hm
    have hlt := h n.toNat (Nat.lt_of_not_le hm)
    rw [UInt32.ofNat_toNat] at hlt
    exact UInt32.lt_irrefl n hlt
  · intro h k hk
    have hn := n.toNat_lt
    rw [UInt32.lt_iff_toNat_lt, UInt32.toNat_ofNat']
    omega

/-- The array is large enough if and only if no peer has come after it was sized. -/
theorem size_iff {n : UInt32} {seen peers : List String} (hn : n = UInt32.ofNat seen.length)
    (hseen : seen <:+ peers) : peers.length ≤ n.toNat ↔ peers = seen ∧ seen.length < 2 ^ 32 := by
  have hle := hseen.length_le
  rw [hn, UInt32.toNat_ofNat']
  constructor
  · intro h
    refine ⟨(hseen.eq_of_length (by omega)).symm, by omega⟩
  · rintro ⟨rfl, h⟩
    omega

/-- The cursors of one piece. -/
theorem inside_iff (hs : Kept s) (ht : s.locals[i]? = some t) :
    (∀ e ∈ t.sends s.shared, e.context.Inside) ↔ SameSize s t := by
  by_cases h : CallThread.Sending s.shared t
  · cases h with
    | broadcast serial command args n seen =>
      obtain ⟨hn, hseen⟩ := hs.sized _ (Parties.mem_of_get ht) n seen rfl
      have hcontexts : (∀ e ∈ CallThread.sends ⟨⟨serial, .broadcast command args⟩, .sized n seen⟩
          s.shared, e.context.Inside) ↔
          ∀ k < s.shared.peers.length, UInt32.ofNat k < n := by
        rw [← List.forall_mem_map (f := StubCall.context) (P := ClientContext.Inside),
          CallThread.sends, Broker.broadcastCalls_context, List.forall_mem_map]
        simp only [List.mem_range, UInt32.zero_add]
        rfl
      rw [hcontexts, cursor_lt_iff, size_iff hn hseen]
      constructor
      · rintro h _ _ _ _ ⟨⟩ -
        exact h
      · exact fun h => h n seen command args rfl rfl
    | send serial command args recipient =>
      refine iff_of_true (fun e he => ?_) fun _ _ _ _ hst => (by cases hst)
      obtain rfl := List.mem_singleton.mp he
      trivial
    | forward serial hf =>
      refine iff_of_true (fun e he => ?_) fun _ _ _ _ hst => (by cases hst)
      rw [CallThread.sends_forward hf] at he
      obtain ⟨target, -, rfl⟩ := List.mem_map.mp he
      trivial
  · rw [CallThread.sends_nil h]
    refine iff_of_true (List.forall_mem_nil _) fun n seen command args hst hop => ?_
    exact absurd (.of_broadcast hst hop) h

/--
**No cursor leaves its array if and only if no peer comes between the two pieces of a broadcast.**
-/
theorem cursors_iff {nodeId : String} {operations : List Operation} {schedule : List Nat}
    (hrun : run (Parties.step (CallThread.advance messageFactory)) (start nodeId operations)
      schedule = some s) :
    (∀ e ∈ s.shared.sent, e.context.Inside) ↔
      AllSteps (Parties.step (CallThread.advance messageFactory))
        (fun s i => ∀ t ∈ s.locals[i]?, SameSize s t) (start nodeId operations) schedule := by
  refine log_iff (fun sent => ∀ e ∈ sent, e.context.Inside) ?_ nofun hrun
  intro s i t hs ht
  rw [List.forall_mem_append, inside_iff hs ht]

theorem cursors_iff_inTurn :
    ∃ s, run (Parties.step (CallThread.advance oneMessage)) threeCalls inTurn = some s ∧
      ((∀ e ∈ s.shared.sent, e.context.Inside) ↔
        AllSteps (Parties.step (CallThread.advance oneMessage))
          (fun s i => ∀ t ∈ s.locals[i]?, SameSize s t) threeCalls inTurn) :=
  ⟨_, rfl, cursors_iff rfl⟩

/--
A cursor outside of the arrays.

The broadcast counts one peer, and loops over two.
-/
theorem cursor_outside :
    ∃ s e, run (Parties.step (CallThread.advance oneMessage))
        (start "n" [.addPeer "a", .addPeer "b", .broadcast "c" []]) [0, 0, 2, 1, 1, 2] = some s ∧
      e ∈ s.shared.sent ∧ e.context = .array 2 1 1 ∧ ¬ e.context.Inside :=
  ⟨_, _, rfl, List.mem_cons_of_mem _ (List.mem_singleton_self _), rfl, nofun⟩

/-! ## Contexts -/

/-- The call has a context for each node that its next piece sends to. -/
def OwnContexts (s : BrokerRace) (t : CallThread) : Prop :=
  (∀ data, t.stage = .entered → t.call.operation = .inbox data → s.shared.Forwards data →
    (s.shared.targets data).length ≤ 1) ∧
  ∀ n seen command args, t.stage = .sized n seen → t.call.operation = .broadcast command args →
    s.shared.peers.length ≤ 2 ^ 32

/-- The cursors differ until the counter wraps. -/
theorem cursors_nodup_iff {serial : Nat} {n : UInt32} {m : Nat} :
    ((List.range m).map fun k => ClientContext.array serial n (UInt32.ofNat k)).Nodup ↔
      m ≤ 2 ^ 32 := by
  constructor
  · intro h
    by_contra hm
    have hsame := List.inj_on_of_nodup_map h (x := 0) (y := 2 ^ 32) (List.mem_range.mpr (by omega))
      (List.mem_range.mpr (by omega)) rfl
    cases hsame
  · intro hm
    refine List.Nodup.map_on (fun j hj k hk hjk => ?_) List.nodup_range
    rw [ClientContext.array.injEq] at hjk
    have hnat := congrArg UInt32.toNat hjk.2.2
    rw [UInt32.toNat_ofNat', UInt32.toNat_ofNat'] at hnat
    rw [List.mem_range] at hj hk
    omega

/-- The contexts of one piece. -/
theorem contexts_nodup_iff : ((t.sends s.shared).map StubCall.context).Nodup ↔ OwnContexts s t := by
  by_cases h : CallThread.Sending s.shared t
  · cases h with
    | broadcast serial command args n seen =>
      rw [CallThread.sends, Broker.broadcastCalls_context]
      simp only [UInt32.zero_add]
      rw [cursors_nodup_iff]
      constructor
      · exact fun h => ⟨fun _ hst => (by cases hst), fun _ _ _ _ _ _ => h⟩
      · exact fun h => h.2 n seen command args rfl rfl
    | send serial command args recipient =>
      exact iff_of_true (List.nodup_singleton _)
        ⟨fun _ hst => (by cases hst), fun _ _ _ _ hst => (by cases hst)⟩
    | @forward serial data hf =>
      have hcontexts : (s.shared.forwardCalls serial data).map StubCall.context
          = List.replicate (s.shared.targets data).length (.variable serial) := by
        rw [Broker.forwardCalls, List.map_map, ← List.map_const']
        rfl
      rw [CallThread.sends_forward hf, hcontexts, List.nodup_replicate]
      constructor
      · rintro h
        refine ⟨?_, fun _ _ _ _ hst => (by cases hst)⟩
        rintro _ - ⟨⟩ -
        exact h
      · exact fun h => h.1 data rfl rfl hf
  · rw [CallThread.sends_nil h]
    refine iff_of_true List.nodup_nil ⟨fun data hst hop hf => ?_,
      fun n seen command args hst hop => ?_⟩
    · exact absurd (.of_inbox hst hop hf) h
    · exact absurd (.of_broadcast hst hop) h

/-- A piece uses contexts that no other call has used. -/
theorem Kept.fresh (hs : Kept s) (ht : s.locals[i]? = some t) :
    ∀ e ∈ s.shared.sent, ∀ e' ∈ t.sends s.shared, e.context ≠ e'.context := by
  intro e he e' he' heq
  obtain ⟨t', ht', hended, hserial⟩ := hs.senders e he
  rw [heq, (CallThread.sends_mem he').2] at hserial
  have hsame := List.inj_on_of_nodup_map hs.serials ht' (Parties.mem_of_get ht) hserial
  exact CallThread.not_ended_of_sends he' (hsame ▸ hended)

/--
**Every call of `execute_message` has its own context if and only if no message is sent on to more
than one node**, and no broadcast makes the cursor wrap.
-/
theorem contexts_iff {nodeId : String} {operations : List Operation} {schedule : List Nat}
    (hrun : run (Parties.step (CallThread.advance messageFactory)) (start nodeId operations)
      schedule = some s) :
    (s.shared.sent.map StubCall.context).Nodup ↔
      AllSteps (Parties.step (CallThread.advance messageFactory))
        (fun s i => ∀ t ∈ s.locals[i]?, OwnContexts s t) (start nodeId operations) schedule := by
  refine log_iff (fun sent => (sent.map StubCall.context).Nodup) ?_ List.nodup_nil hrun
  intro s i t hs ht
  have hfresh : ∀ c ∈ s.shared.sent.map StubCall.context,
      ∀ c' ∈ (t.sends s.shared).map StubCall.context, c ≠ c' := by
    simpa only [List.forall_mem_map] using hs.fresh ht
  rw [List.map_append, List.nodup_append, contexts_nodup_iff, and_iff_left hfresh]

theorem contexts_iff_inTurn :
    ∃ s, run (Parties.step (CallThread.advance oneMessage)) threeCalls inTurn = some s ∧
      ((s.shared.sent.map StubCall.context).Nodup ↔
        AllSteps (Parties.step (CallThread.advance oneMessage))
          (fun s i => ∀ t ∈ s.locals[i]?, OwnContexts s t) threeCalls inTurn) :=
  ⟨_, rfl, contexts_iff rfl⟩

/-- A broadcast of another node. -/
def broadcastOfM : MessageData where
  command := "c"
  args := []
  sender := "m"
  isBroadcast := true
  visitedRecipients := ["m"]

/--
One context for two calls.

A node with two peers gets a broadcast that none of them has seen.
-/
theorem context_shared :
    ∃ s, run (Parties.step (CallThread.advance oneMessage))
        (start "n" [.addPeer "a", .addPeer "b", .inbox broadcastOfM]) [0, 0, 1, 1, 2] = some s ∧
      s.shared.sent.map StubCall.target = ["b", "a"] ∧
      s.shared.sent.map StubCall.context = [.variable 2, .variable 2] ∧
      ¬ (s.shared.sent.map StubCall.context).Nodup :=
  ⟨_, rfl, rfl, rfl, by decide⟩

end BrokerRace

end AttentionBroker
