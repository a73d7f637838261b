import Mathlib.Algebra.Order.BigOperators.Group.List
import Mathlib.Tactic.Ring
import AttentionBroker.Node.InboxSteps

/-!
# Broadcasts by many threads

`NodeNetwork.traffic` is what the threads and the queues hold of one broadcast. It changes as in a
network where a node processes a message at once. So what `Broadcast` says of that network holds
for the threads, for any number of broadcasts at the same time.
-/

namespace AttentionBroker

open Infra SynchronousGRPC

variable {μ : Type}

namespace NodeNetwork

variable {net : NodeNetwork μ} {v : String}

/-! ## The traffic of a broadcast -/

section ofSerial

variable {α : Type} {serial serial' : Nat}

theorem ofSerial_append (l l' : List (Nat × α)) :
    ofSerial serial (l ++ l') = ofSerial serial l ++ ofSerial serial l' := by
  rw [ofSerial, List.filter_append, List.map_append]
  rfl

theorem ofSerial_cons_self (x : α) (l : List (Nat × α)) :
    ofSerial serial ((serial, x) :: l) = x :: ofSerial serial l := by
  rw [ofSerial, List.filter_cons_of_pos (by simp), List.map_cons]
  rfl

theorem ofSerial_cons_ne (h : serial' ≠ serial) (x : α) (l : List (Nat × α)) :
    ofSerial serial ((serial', x) :: l) = ofSerial serial l := by
  rw [ofSerial, List.filter_cons_of_neg (by simpa using h)]
  rfl

theorem ofSerial_self (serial : Nat) (l : List α) :
    ofSerial serial (l.map (Prod.mk serial)) = l := by
  induction l with
  | nil => rfl
  | cons x l ih =>
    rw [List.map_cons, ofSerial_cons_self, ih]

theorem ofSerial_ne (h : serial ≠ serial') (l : List α) :
    ofSerial serial (l.map (Prod.mk serial')) = [] := by
  rw [ofSerial, List.filter_eq_nil_iff.mpr, List.map_nil]
  intro p hp
  obtain ⟨x, -, rfl⟩ := List.mem_map.mp hp
  simpa using h.symm

theorem ofSerial_perm {l l' : List (Nat × α)} (h : l.Perm l') :
    (ofSerial serial l).Perm (ofSerial serial l') := (h.filter _).map _

theorem mem_ofSerial {l : List (Nat × α)} {x : α} : x ∈ ofSerial serial l ↔ (serial, x) ∈ l := by
  simp [ofSerial]

end ofSerial

variable {origin command : String} {args : List String} {x y : Traffic μ} {d : Delivery}

/-- The order of the messages does not matter. -/
theorem Flooding.perm (h : Flooding net origin command args x)
    (hi : x.inFlight.Perm y.inFlight) (he : x.executed.Perm y.executed) :
    Flooding net origin command args y where
  inFlight d hd := h.inFlight d (hi.mem_iff.mpr hd)
  executed e hm := h.executed e (he.mem_iff.mpr hm)
  once P v hP hne := by
    rw [← (he.map _).count_eq, ← hi.countP_eq]
    exact h.once P v hP hne

/-- A message that a node processes gives way to those that the node sends. -/
theorem Flooding.process (h : Flooding net origin command args x) (ho : origin ∈ net.nodes)
    (hk : net.Recognised command args) {rest sent : List Delivery} {acts : List (Execution μ)}
    (hi : x.inFlight.Perm (d :: rest))
    (hrun : SynchronousGRPC.inbox d.recipient (net.peers d.recipient)
      (net.messageFactory d.recipient) d.data = some (sent, acts))
    (hi' : y.inFlight.Perm (sent ++ rest)) (he' : y.executed.Perm (acts ++ x.executed)) :
    Flooding net origin command args y ∧
      (sent.map net.remaining).sum < net.remaining d := by
  obtain ⟨j, hj⟩ := List.mem_iff_getElem?.mp (hi.mem_iff.mpr List.mem_cons_self)
  obtain ⟨x', hstep, h'⟩ := h.step ho hk hj
  have hx' : ⟨x.inFlight.eraseIdx j ++ sent, x.executed ++ acts⟩ = x' := by
    simpa [NodeNetwork.step, hj, hrun] using hstep
  have hrest : (x.inFlight.eraseIdx j).Perm rest :=
    List.Perm.cons_inv ((perm_eraseIdx hj).symm.trans hi)
  subst hx'
  refine ⟨h'.perm ?_ ?_, ?_⟩
  · exact ((hrest.append_right sent).trans List.perm_append_comm).trans hi'.symm
  · exact List.perm_append_comm.trans he'.symm
  · have hc := h.inFlight d (List.mem_of_getElem? hj)
    by_cases hv : d.recipient ∈ d.data.visitedRecipients
    · rw [inbox_visited hc.isBroadcast hv] at hrun
      obtain ⟨rfl, -⟩ := Prod.mk.inj (Option.some.inj hrun)
      exact net.remaining_pos d
    · obtain ⟨message, hm⟩ := hk d.recipient (hc.mem_nodes ho).1
      rw [← hc.command, ← hc.args] at hm
      rw [inbox_new hc.isBroadcast hv hm] at hrun
      obtain ⟨rfl, -⟩ := Prod.mk.inj (Option.some.inj hrun)
      exact sum_forwarded_lt hc ho

theorem length_peers_le (hv : v ∈ net.nodes) : (net.peers v).length ≤ net.nodes.card := by
  rw [← List.toFinset_card_of_nodup (net.nodup v)]
  exact Finset.card_le_card fun x hx => net.closed v hv x (List.mem_toFinset.mp hx)

end NodeNetwork

/-! ## All threads -/

namespace NodeThreads

open NodeNetwork

variable {net : NodeNetwork μ} {broadcasts : List BroadcastCall} {s s' : NodeThreads μ}
  {t t' : NodeThread} {sh : NodeMemory μ} {i : Nat}

/-- A call that some node makes, of a command that all nodes know. -/
structure ValidCall (net : NodeNetwork μ) (b : BroadcastCall) : Prop where
  origin : b.origin ∈ net.nodes
  peers : (net.peers b.origin).length < 2 ^ 32
  recognised : net.Recognised b.command b.args

/-- What every state satisfies. The traffic of each broadcast is that of one alone. -/
structure Broadcasting (net : NodeNetwork μ) (broadcasts : List BroadcastCall)
    (s : NodeThreads μ) : Prop where
  wf : ∀ v, (s.shared.incomingMessages v).Holds (s.shared.incomingMessages v).toList
  place : ∀ t ∈ s.locals, net.InPlace t
  staffed : ∀ v ∈ net.nodes, ∃ t ∈ s.locals, t.node = v ∧ t.inbox = true
  lock : ∀ v, (s.locals.map fun t => (holdsAt v t).toNat).sum = (s.shared.peersMutex v).toNat
  serials : ∀ p ∈ net.inFlight s, p.1 < broadcasts.length
  flooding : ∀ serial b, broadcasts[serial]? = some b →
    Flooding net b.origin b.command b.args (net.traffic serial s)

/-- A bound on the steps that are to come. -/
noncomputable def toGo (net : NodeNetwork μ) (s : NodeThreads μ) : Nat :=
  (2 * net.nodes.card + 5) * ((net.inFlight s).map fun p => net.remaining p.2).sum
    + (net.queued s.shared).length + (s.locals.map net.stepsLeft).sum

section Split

variable (net)

/-- The messages of one thread and those of the others. -/
theorem inFlight_perm (ht : s.locals[i]? = some t) : (net.inFlight s).Perm
    (net.queued s.shared ++ net.parcels t ++ (s.others i).flatMap net.parcels) := by
  rw [inFlight, List.append_assoc]
  exact ((Parties.perm_others ht).flatMap_right _).append_left _

theorem inFlight_set (ht : s.locals[i]? = some t) (t' : NodeThread) (sh : NodeMemory μ) :
    (net.inFlight { shared := sh, locals := s.locals.set i t' }).Perm
      (net.queued sh ++ net.parcels t' ++ (s.others i).flatMap net.parcels) := by
  rw [inFlight, List.append_assoc]
  exact ((Parties.set_perm_others ht t').flatMap_right _).append_left _

theorem executed_perm (ht : s.locals[i]? = some t) : (net.executed s).Perm
    (s.shared.executed ++ net.pending t ++ (s.others i).flatMap net.pending) := by
  rw [NodeNetwork.executed, List.append_assoc]
  exact ((Parties.perm_others ht).flatMap_right _).append_left _

theorem executed_set (ht : s.locals[i]? = some t) (t' : NodeThread) (sh : NodeMemory μ) :
    (net.executed { shared := sh, locals := s.locals.set i t' }).Perm
      (sh.executed ++ net.pending t' ++ (s.others i).flatMap net.pending) := by
  rw [NodeNetwork.executed, List.append_assoc]
  exact ((Parties.set_perm_others ht t').flatMap_right _).append_left _

theorem stepsLeft_set (ht : s.locals[i]? = some t) (t' : NodeThread) :
    ((s.locals.set i t').map net.stepsLeft).sum + net.stepsLeft t
      = (s.locals.map net.stepsLeft).sum + net.stepsLeft t' := by
  rw [Parties.sum_locals _ ht, Parties.sum_set_others _ ht]
  omega

end Split

namespace Broadcasting

/-- A message in flight is of one of the broadcasts. -/
theorem copy_of_mem (h : Broadcasting net broadcasts s) {serial : Nat} {d : Delivery}
    (hd : (serial, d) ∈ net.inFlight s) : ∃ b, broadcasts[serial]? = some b ∧
      d ∈ (net.traffic serial s).inFlight ∧ Copy net b.origin b.command b.args d := by
  have hlt := h.serials _ hd
  refine ⟨_, List.getElem?_eq_getElem hlt, mem_ofSerial.mpr hd, ?_⟩
  exact (h.flooding serial _ (List.getElem?_eq_getElem hlt)).inFlight d (mem_ofSerial.mpr hd)

theorem outcome (h : Broadcasting net broadcasts s) (hvalid : ∀ b ∈ broadcasts, ValidCall net b)
    (ht : s.locals[i]? = some t) : net.Outcome t s.shared (advance net t s.shared) := by
  have hmem := Parties.mem_of_get ht
  refine NodeNetwork.outcome (h.place t hmem) h.wf (fun v hv => ?_) fun parcel hstage => ?_
  · exact Parties.locked_of_holds (h.lock v) ht hv
  · have hin : (parcel.serial, { recipient := t.node, data := parcel.data }) ∈ net.inFlight s := by
      refine List.mem_append_right _ (List.mem_flatMap.mpr ⟨t, hmem, ?_⟩)
      rw [parcels, hstage]
      exact List.mem_singleton_self _
    obtain ⟨b, hb, -, hcopy⟩ := h.copy_of_mem hin
    obtain ⟨message, hm⟩ :=
      (hvalid b (List.mem_of_getElem? hb)).recognised t.node (h.place t hmem).1
    have hcommand := hcopy.command
    have hargs := hcopy.args
    exact ⟨hcopy.isBroadcast, message, by rw [← hm, ← hcommand, ← hargs]⟩

/-- What a step that moves messages does to the traffic of the broadcasts. -/
theorem flooding_transfer (h : Broadcasting net broadcasts s) (ht : s.locals[i]? = some t)
    (hs' : s' = { shared := sh, locals := s.locals.set i t' })
    (hp : (net.queued sh ++ net.parcels t').Perm (net.queued s.shared ++ net.parcels t))
    (he : (sh.executed ++ net.pending t').Perm (s.shared.executed ++ net.pending t))
    (hlt : (net.queued sh).length + net.stepsLeft t'
      < (net.queued s.shared).length + net.stepsLeft t) :
    (∀ p ∈ net.inFlight s', p.1 < broadcasts.length) ∧
    (∀ serial b, broadcasts[serial]? = some b →
      Flooding net b.origin b.command b.args (net.traffic serial s')) ∧
    toGo net s' < toGo net s := by
  subst hs'
  have hin : (net.inFlight { shared := sh, locals := s.locals.set i t' }).Perm (net.inFlight s) :=
    ((inFlight_set net ht t' sh).trans (hp.append_right _)).trans (inFlight_perm net ht).symm
  have hex : (net.executed { shared := sh, locals := s.locals.set i t' }).Perm (net.executed s) :=
    ((executed_set net ht t' sh).trans (he.append_right _)).trans (executed_perm net ht).symm
  refine ⟨fun p hp => h.serials p (hin.mem_iff.mp hp), fun serial b hb => ?_, ?_⟩
  · exact (h.flooding serial b hb).perm (ofSerial_perm hin.symm) (ofSerial_perm hex.symm)
  · have hsteps := stepsLeft_set net ht t'
    rw [toGo, toGo, (hin.map _).sum_eq]
    show _ + (net.queued sh).length + ((s.locals.set i t').map _).sum < _
    omega

end Broadcasting

/-- What a step in which a node processes a message `d` of a broadcast does to the traffic. -/
structure Processed (net : NodeNetwork μ) (s s' : NodeThreads μ) (serial : Nat) (d : Delivery)
    (sent : List Delivery) (acts : List (Execution μ)) (rest : List (Nat × Delivery))
    (done : List (Nat × Execution μ)) : Prop where
  inFlight : (net.inFlight s).Perm ((serial, d) :: rest)
  inFlight' : (net.inFlight s').Perm (sent.map (Prod.mk serial) ++ rest)
  executed : (net.executed s).Perm done
  executed' : (net.executed s').Perm (acts.map (Prod.mk serial) ++ done)

namespace Processed

variable {serial serial' : Nat} {parcel : Parcel} {d : Delivery} {sent : List Delivery}
  {acts : List (Execution μ)} {rest : List (Nat × Delivery)} {done : List (Nat × Execution μ)}
  {b : BroadcastCall}

theorem of_step (ht : s.locals[i]? = some t) (hstage : t.stage = .received parcel)
    (hp : net.parcels t' = sent.map (Prod.mk parcel.serial))
    (he : net.pending t' = acts.map (Prod.mk parcel.serial)) :
    Processed net s { s with locals := s.locals.set i t' } parcel.serial
      { recipient := t.node, data := parcel.data } sent acts
      (net.queued s.shared ++ (s.others i).flatMap net.parcels)
      (s.shared.executed ++ (s.others i).flatMap net.pending) := by
  have hparcels : net.parcels t
      = [(parcel.serial, { recipient := t.node, data := parcel.data })] := by
    rw [parcels, hstage]
    rfl
  have hpending : net.pending t = [] := by rw [pending, hstage]
  constructor
  · refine (inFlight_perm net ht).trans ?_
    rw [hparcels, List.append_assoc]
    exact List.perm_middle
  · refine (inFlight_set net ht t' s.shared).trans ?_
    rw [hp, List.append_assoc]
    exact List.perm_append_comm_assoc _ _ _
  · refine (executed_perm net ht).trans ?_
    rw [hpending, List.append_nil]
  · refine (executed_set net ht t' s.shared).trans ?_
    rw [he, List.append_assoc]
    exact List.perm_append_comm_assoc _ _ _

/-- For its own broadcast it is the step of the node. -/
theorem own (hd : Processed net s s' serial d sent acts rest done)
    (h : Flooding net b.origin b.command b.args (net.traffic serial s)) (hb : ValidCall net b)
    (hrun : SynchronousGRPC.inbox d.recipient (net.peers d.recipient)
      (net.messageFactory d.recipient) d.data = some (sent, acts)) :
    Flooding net b.origin b.command b.args (net.traffic serial s') ∧
      (sent.map net.remaining).sum < net.remaining d := by
  have hbefore : (net.traffic serial s).inFlight.Perm (d :: ofSerial serial rest) := by
    rw [← ofSerial_cons_self]
    exact ofSerial_perm hd.inFlight
  have hafter : (net.traffic serial s').inFlight.Perm (sent ++ ofSerial serial rest) := by
    refine (ofSerial_perm hd.inFlight').trans (.of_eq ?_)
    rw [ofSerial_append, ofSerial_self]
  have hexecuted : (net.traffic serial s').executed.Perm
      (acts ++ (net.traffic serial s).executed) := by
    refine (ofSerial_perm hd.executed').trans ?_
    rw [ofSerial_append, ofSerial_self]
    exact (ofSerial_perm hd.executed).symm.append_left _
  exact h.process hb.origin hb.recognised hbefore hrun hafter hexecuted

/-- For the other broadcasts nothing has changed. -/
theorem other (hd : Processed net s s' serial d sent acts rest done) (hne : serial' ≠ serial)
    (h : Flooding net b.origin b.command b.args (net.traffic serial' s)) :
    Flooding net b.origin b.command b.args (net.traffic serial' s') := by
  have hnone : ∀ {α : Type} (l : List α) (l' : List (Nat × α)),
      ofSerial serial' (l.map (Prod.mk serial) ++ l') = ofSerial serial' l' :=
    fun l l' => by rw [ofSerial_append, ofSerial_ne hne, List.nil_append]
  refine h.perm ?_ ?_
  · refine (ofSerial_perm hd.inFlight).trans (.trans (.of_eq ?_) (ofSerial_perm hd.inFlight').symm)
    rw [hnone, ofSerial_cons_ne (Ne.symm hne)]
  · refine (ofSerial_perm hd.executed).trans (.trans (.of_eq ?_) (ofSerial_perm hd.executed').symm)
    rw [hnone]

/-- The messages that are sent on have less to come than the one that is processed. -/
theorem toGo_lt (hv : t.node ∈ net.nodes) (ht : s.locals[i]? = some t)
    (hd : Processed net s { s with locals := s.locals.set i t' } serial d sent acts rest done)
    (hzero : net.stepsLeft t = 0) (hlt : net.stepsLeft t' ≤ 2 * (net.peers t.node).length + 4)
    (hsum : (sent.map net.remaining).sum < net.remaining d) :
    toGo net { s with locals := s.locals.set i t' } < toGo net s := by
  have hsteps := stepsLeft_set net ht t'
  have hcard := length_peers_le hv
  have hwork : (2 * net.nodes.card + 5) * ((sent.map net.remaining).sum + 1)
      ≤ (2 * net.nodes.card + 5) * net.remaining d := Nat.mul_le_mul_left _ hsum
  have hsent : ((sent.map (Prod.mk serial)).map fun p => net.remaining p.2).sum
      = (sent.map net.remaining).sum := by rw [List.map_map]; rfl
  rw [toGo, toGo, (hd.inFlight.map _).sum_eq, (hd.inFlight'.map _).sum_eq, List.map_append,
    List.sum_append, hsent, List.map_cons, List.sum_cons, Nat.mul_add, Nat.mul_add]
  rw [Nat.mul_add, Nat.mul_one] at hwork
  have hremaining : net.remaining (serial, d).2 = net.remaining d := rfl
  rw [hremaining]
  show _ + (net.queued s.shared).length + ((s.locals.set i t').map _).sum < _
  omega

end Processed

namespace Broadcasting

/-- What a step does to the traffic of the broadcasts. -/
theorem flooding_moves (h : Broadcasting net broadcasts s)
    (hvalid : ∀ b ∈ broadcasts, ValidCall net b) (ht : s.locals[i]? = some t)
    (hm : net.Moves t s.shared t' sh)
    (hs' : s' = { shared := sh, locals := s.locals.set i t' }) :
    (∀ p ∈ net.inFlight s', p.1 < broadcasts.length) ∧
    (∀ serial b, broadcasts[serial]? = some b →
      Flooding net b.origin b.command b.args (net.traffic serial s')) ∧
    toGo net s' < toGo net s := by
  cases hm with
  | transfer hp he hlt => exact h.flooding_transfer ht hs' hp he hlt
  | @process parcel sent acts hs hstage hrun hp he hlt =>
    subst hs hs'
    have hd := Processed.of_step ht hstage hp he
    have hmem := hd.inFlight.mem_iff.mpr List.mem_cons_self
    obtain ⟨b, hb, -, -⟩ := h.copy_of_mem hmem
    obtain ⟨hflooding, hsum⟩ :=
      hd.own (h.flooding parcel.serial b hb) (hvalid b (List.mem_of_getElem? hb)) hrun
    refine ⟨fun p hp => ?_, fun serial b' hb' => ?_, ?_⟩
    · rcases List.mem_append.mp (hd.inFlight'.mem_iff.mp hp) with hnew | hold
      · obtain ⟨x, -, rfl⟩ := List.mem_map.mp hnew
        show parcel.serial < _
        exact h.serials _ hmem
      · exact h.serials p (hd.inFlight.mem_iff.mpr (List.mem_cons_of_mem _ hold))
    · by_cases hserial : serial = parcel.serial
      · subst hserial
        obtain rfl := Option.some.inj (hb.symm.trans hb')
        exact hflooding
      · exact hd.other hserial (h.flooding serial b' hb')
    · have hzero : net.stepsLeft t = 0 := by rw [stepsLeft, hstage]
      exact hd.toGo_lt (h.place t (Parties.mem_of_get ht)).1 ht hzero hlt hsum

/-- **Every step keeps the traffic of each broadcast that of one alone.** -/
theorem turn (h : Broadcasting net broadcasts s) (hvalid : ∀ b ∈ broadcasts, ValidCall net b)
    (ht : s.locals[i]? = some t) (hs : net.Steps t s.shared t' sh) :
    Broadcasting net broadcasts { shared := sh, locals := s.locals.set i t' } ∧
      toGo net { shared := sh, locals := s.locals.set i t' } < toGo net s := by
  obtain ⟨hserials, hflooding, hlt⟩ := h.flooding_moves hvalid ht hs.moves rfl
  refine ⟨⟨hs.wf, Parties.forall_set h.place hs.place, fun v hv => ?_, fun v => ?_, hserials,
    hflooding⟩, hlt⟩
  · rw [Parties.exists_set ht, hs.node, hs.inbox]
    exact (Parties.exists_locals ht).mp (h.staffed v hv)
  · have hlock := h.lock v
    have hstep := hs.lock v
    rw [Parties.sum_locals _ ht] at hlock
    show _ = (sh.peersMutex v).toNat
    rw [Parties.sum_set_others _ ht]
    omega

theorem step (h : Broadcasting net broadcasts s) (hvalid : ∀ b ∈ broadcasts, ValidCall net b)
    (hstep : Parties.step (advance net) s i = some s') :
    Broadcasting net broadcasts s' ∧ toGo net s' ≤ toGo net s ∧
      (i < s.locals.length → toGo net s' < toGo net s) := by
  obtain ⟨hnone, rfl⟩ | ⟨t, sh, t', ht, hadv, rfl⟩ := Parties.step_cases hstep
  · exact ⟨h, Nat.le_refl _, fun hi => absurd (List.getElem?_eq_none_iff.mp hnone)
      (Nat.not_le.mpr hi)⟩
  · have hout := h.outcome hvalid ht
    rw [hadv] at hout
    obtain ⟨h', hlt⟩ := h.turn hvalid ht hout
    exact ⟨h', Nat.le_of_lt hlt, fun _ => hlt⟩

/-- Nothing is left to do, or a queue is full and cannot be doubled. -/
def Final (net : NodeNetwork μ) (s : NodeThreads μ) : Prop :=
  Quiet net s ∨ ∃ v ∈ net.nodes, ¬ (s.shared.incomingMessages v).Fits

/-- What can keep a thread from its next turn. -/
theorem turn_cases (h : Broadcasting net broadcasts s) (hvalid : ∀ b ∈ broadcasts, ValidCall net b)
    (ht : s.locals[i]? = some t) :
    (∃ i < s.locals.length, ∃ s', Parties.step (advance net) s i = some s') ∨
    (∃ parcel visited, t.stage = .locking parcel visited ∧ s.shared.peersMutex t.node = true) ∨
    (t.stage = .polling ∧ (s.shared.incomingMessages t.node).toList = []) ∨
    t.stage = .returned ∨ ∃ v ∈ net.nodes, ¬ (s.shared.incomingMessages v).Fits := by
  have hout := h.outcome hvalid ht
  cases hadv : advance net t s.shared with
  | ok r => exact .inl ⟨i, (List.getElem?_eq_some_iff.mp ht).1, _,
      Parties.step_of_turn (Parties.turn_ok ht hadv)⟩
  | error e =>
    rw [hadv] at hout
    cases e with
    | waits => exact .inr (hout.imp_right .inl)
    | returned => exact .inr (.inr (.inr (.inl hout)))
    | fault => exact .inr (.inr (.inr (.inr hout)))

/-- A thread that has something to do goes on, or the one that has the mutex it waits for. -/
theorem goes_on (h : Broadcasting net broadcasts s) (hvalid : ∀ b ∈ broadcasts, ValidCall net b)
    (hfits : ∀ v ∈ net.nodes, (s.shared.incomingMessages v).Fits) (ht : s.locals[i]? = some t)
    (hpolling : t.stage = .polling → (s.shared.incomingMessages t.node).toList ≠ [])
    (hreturned : t.stage ≠ .returned) :
    ∃ i < s.locals.length, ∃ s', Parties.step (advance net) s i = some s' := by
  rcases h.turn_cases hvalid ht with hstep | ⟨parcel, visited, -, hmutex⟩ | ⟨hl, hempty⟩ | hl |
    ⟨v, hv, hnot⟩
  · exact hstep
  · obtain ⟨j, x, hj, hholds⟩ := Parties.exists_holder (h.lock t.node) hmutex
    unfold holdsAt at hholds
    split at hholds
    · next parcel' visited' targets hsending =>
      rcases h.turn_cases hvalid hj with hstep | ⟨_, _, hl, -⟩ | ⟨hl, -⟩ | hl | ⟨v, hv, hnot⟩
      · exact hstep
      · cases hsending.symm.trans hl
      · cases hsending.symm.trans hl
      · cases hsending.symm.trans hl
      · exact absurd (hfits v hv) hnot
    · cases hholds
  · exact absurd hempty (hpolling hl)
  · exact absurd hl hreturned
  · exact absurd (hfits v hv) hnot

/-- **Until nothing is left to do, some thread can go on.** -/
theorem progress (h : Broadcasting net broadcasts s) (hvalid : ∀ b ∈ broadcasts, ValidCall net b) :
    Final net s ∨ ∃ i < s.locals.length, ∃ s', Parties.step (advance net) s i = some s' := by
  by_cases hfits : ∀ v ∈ net.nodes, (s.shared.incomingMessages v).Fits
  · by_cases hbusy : ∃ t ∈ s.locals, t.stage ≠ .polling ∧ t.stage ≠ .returned
    · obtain ⟨t, ht, hpolling, hreturned⟩ := hbusy
      obtain ⟨i, hi⟩ := List.mem_iff_getElem?.mp ht
      exact .inr (h.goes_on hvalid hfits hi (fun hs => absurd hs hpolling) hreturned)
    · push Not at hbusy
      have hidle : ∀ t ∈ s.locals, t.stage = .polling ∨ t.stage = .returned := fun t ht =>
        or_iff_not_imp_left.mpr (hbusy t ht)
      by_cases hempty : ∀ v ∈ net.nodes, (s.shared.incomingMessages v).toList = []
      · exact .inl (.inl ⟨hidle, hempty⟩)
      · push Not at hempty
        obtain ⟨v, hv, hne⟩ := hempty
        obtain ⟨t, ht, rfl, hinbox⟩ := h.staffed v hv
        obtain ⟨i, hi⟩ := List.mem_iff_getElem?.mp ht
        have hreturned : t.stage ≠ .returned := fun hs => by
          have hplace := (h.place t ht).2
          rw [hs] at hplace
          cases hinbox.symm.trans hplace
        exact .inr (h.goes_on hvalid hfits hi (fun _ => hne) hreturned)
  · push Not at hfits
    obtain ⟨v, hv, hnot⟩ := hfits
    exact .inl (.inr ⟨v, hv, hnot⟩)

end Broadcasting

/-! ## The start -/

theorem parcels_call (net : NodeNetwork μ) (serial : Nat) (b : BroadcastCall) :
    net.parcels { node := b.origin
                  inbox := false
                  stage := .broadcasting serial b.command b.args }
      = (net.start b.origin b.command b.args).inFlight.map (Prod.mk serial) := by
  simp [parcels, deliveries, NodeNetwork.start, broadcast, broadcastParcel, Function.comp_def]

/-- The part of a list is what its number gives. -/
theorem ofSerial_mapIdx {α β : Type} (f : β → List α) (serial : Nat) (l : List β) :
    ofSerial serial (l.mapIdx fun n b => (f b).map (Prod.mk n)).flatten
      = (l[serial]?).elim [] f := by
  induction l using List.reverseRecOn with
  | nil => rfl
  | append_singleton l b ih =>
    rw [List.mapIdx_concat, List.flatten_append, ofSerial_append, ih, List.flatten_singleton]
    rcases Nat.lt_trichotomy serial l.length with hlt | rfl | hgt
    · rw [ofSerial_ne (Nat.ne_of_lt hlt), List.append_nil, List.getElem?_append_left hlt]
    · rw [ofSerial_self, List.getElem?_concat_length, List.getElem?_eq_none (Nat.le_refl _)]
      rfl
    · rw [ofSerial_ne (Nat.ne_of_gt hgt), List.append_nil,
        List.getElem?_eq_none (Nat.le_of_lt hgt), List.getElem?_eq_none (by simpa using hgt)]

/-- Before the first step the parcels are those of the calls. -/
theorem inFlight_start (net : NodeNetwork μ) (broadcasts : List BroadcastCall)
    (inboxes : List String) :
    net.inFlight (start broadcasts inboxes) = (broadcasts.mapIdx fun serial b =>
      (net.start b.origin b.command b.args).inFlight.map (Prod.mk serial)).flatten := by
  have hqueued : net.queued (start broadcasts inboxes : NodeThreads μ).shared = [] := by
    refine List.flatMap_eq_nil_iff.mpr fun v _ => ?_
    show ((RequestQueue.new 1000 : RequestQueue Parcel).toList.map _) = []
    rw [(RequestQueue.holds_new (by decide)).toList_eq]
    rfl
  have hinboxes : (inboxes.map fun v =>
      ({ node := v, inbox := true, stage := .polling } : NodeThread)).flatMap net.parcels = [] := by
    refine List.flatMap_eq_nil_iff.mpr fun t ht => ?_
    obtain ⟨v, -, rfl⟩ := List.mem_map.mp ht
    rfl
  have hcalls : (broadcasts.mapIdx fun serial b =>
      ({ node := b.origin
         inbox := false
         stage := .broadcasting serial b.command b.args } : NodeThread)).map net.parcels
      = broadcasts.mapIdx fun serial b =>
        (net.start b.origin b.command b.args).inFlight.map (Prod.mk serial) := by
    refine List.ext_getElem (by simp) fun i hi hi' => ?_
    simp [parcels_call]
  rw [inFlight, hqueued, List.nil_append, start, List.flatMap_append, hinboxes, List.append_nil,
    List.flatMap_def, hcalls]

theorem executed_start (net : NodeNetwork μ) (broadcasts : List BroadcastCall)
    (inboxes : List String) : net.executed (start broadcasts inboxes) = [] := by
  refine List.flatMap_eq_nil_iff.mpr fun t ht => ?_
  rcases List.mem_append.mp ht with ht | ht
  · obtain ⟨i, hi, rfl⟩ := List.mem_mapIdx.mp ht
    rfl
  · obtain ⟨v, -, rfl⟩ := List.mem_map.mp ht
    rfl

theorem Broadcasting.start (hvalid : ∀ b ∈ broadcasts, ValidCall net b) {inboxes : List String}
    (hinboxes : ∀ v, v ∈ inboxes ↔ v ∈ net.nodes) :
    Broadcasting net broadcasts (start broadcasts inboxes) where
  wf v := by
    have hempty : (RequestQueue.new 1000 : RequestQueue Parcel).Holds [] :=
      RequestQueue.holds_new (by decide)
    show (RequestQueue.new 1000 : RequestQueue Parcel).Holds
      (RequestQueue.new 1000 : RequestQueue Parcel).toList
    rw [hempty.toList_eq]
    exact hempty
  place t ht := by
    rcases List.mem_append.mp ht with ht | ht
    · obtain ⟨i, hi, rfl⟩ := List.mem_mapIdx.mp ht
      have hb := hvalid _ (List.getElem_mem hi)
      exact ⟨hb.origin, rfl, hb.peers⟩
    · obtain ⟨v, hv, rfl⟩ := List.mem_map.mp ht
      exact ⟨(hinboxes v).mp hv, rfl⟩
  staffed v hv := ⟨{ node := v, inbox := true, stage := .polling },
    List.mem_append_right _ (List.mem_map.mpr ⟨v, (hinboxes v).mpr hv, rfl⟩), rfl, rfl⟩
  lock v := by
    refine List.sum_eq_zero fun n hn => ?_
    obtain ⟨t, ht, rfl⟩ := List.mem_map.mp hn
    rcases List.mem_append.mp ht with ht | ht
    · obtain ⟨i, hi, rfl⟩ := List.mem_mapIdx.mp ht
      rfl
    · obtain ⟨w, -, rfl⟩ := List.mem_map.mp ht
      rfl
  serials p hp := by
    rw [inFlight_start] at hp
    obtain ⟨l, hl, hp⟩ := List.mem_flatten.mp hp
    obtain ⟨i, hi, rfl⟩ := List.mem_mapIdx.mp hl
    obtain ⟨d, -, rfl⟩ := List.mem_map.mp hp
    exact hi
  flooding serial b hb := by
    have htraffic : net.traffic serial (NodeThreads.start broadcasts inboxes)
        = net.start b.origin b.command b.args := by
      rw [traffic, inFlight_start, executed_start, ofSerial_mapIdx, hb]
      rfl
    rw [htraffic]
    exact flooding_start net b.origin b.command b.args

/-! ## The end -/

/-- When nothing is left to do, nothing is in flight and what was executed is recorded. -/
theorem traffic_quiet (hq : Quiet net s) (serial : Nat) :
    (net.traffic serial s).inFlight = [] ∧
      ∀ v, (net.traffic serial s).executions v = s.executions serial v := by
  obtain ⟨hidle, hempty⟩ := hq
  have hqueued : net.queued s.shared = [] := by
    refine List.flatMap_eq_nil_iff.mpr fun v hv => ?_
    rw [waiting, hempty v (Finset.mem_toList.mp hv)]
    rfl
  have hparcels : s.locals.flatMap net.parcels = [] := by
    refine List.flatMap_eq_nil_iff.mpr fun t ht => ?_
    rcases hidle t ht with hs | hs <;> rw [parcels, hs]
  have hpending : s.locals.flatMap net.pending = [] := by
    refine List.flatMap_eq_nil_iff.mpr fun t ht => ?_
    rcases hidle t ht with hs | hs <;> rw [pending, hs]
  constructor
  · rw [traffic, inFlight, hqueued, hparcels]
    rfl
  · intro v
    rw [traffic, NodeNetwork.executed, hpending, List.append_nil, Traffic.executions]
    show (ofSerial serial s.shared.executed).countP _ = _
    rw [ofSerial, List.countP_map, List.countP_filter, executions]
    refine List.countP_congr fun e _ => ?_
    simp [and_comm]

/-! ## Whole runs -/

/-- A bound on the steps of one broadcast. -/
def stepBound (net : NodeNetwork μ) : Nat :=
  (2 * net.nodes.card + 5) * (net.nodes.card * (net.nodes.card + 1) ^ net.nodes.card + 1)

theorem toGo_start (hvalid : ∀ b ∈ broadcasts, ValidCall net b) (inboxes : List String) :
    toGo net (start broadcasts inboxes) ≤ broadcasts.length * stepBound net := by
  let s₀ : NodeThreads μ := start broadcasts inboxes
  have hqueued : (net.queued s₀.shared).length = 0 := by
    rw [List.length_eq_zero_iff]
    refine List.flatMap_eq_nil_iff.mpr fun v _ => ?_
    show ((RequestQueue.new 1000 : RequestQueue Parcel).toList.map _) = []
    rw [(RequestQueue.holds_new (by decide)).toList_eq]
    rfl
  have hwork : ((net.inFlight s₀).map fun p => net.remaining p.2).sum
      ≤ broadcasts.length * (net.nodes.card * (net.nodes.card + 1) ^ net.nodes.card) := by
    rw [inFlight_start, List.map_flatten, List.sum_flatten, List.map_map]
    refine (List.sum_le_card_nsmul _ (net.nodes.card * (net.nodes.card + 1) ^ net.nodes.card)
      fun n hn => ?_).trans (by simp)
    obtain ⟨l, hl, rfl⟩ := List.mem_map.mp hn
    obtain ⟨i, hi, rfl⟩ := List.mem_mapIdx.mp hl
    have hstart : net.work (net.start broadcasts[i].origin broadcasts[i].command
        broadcasts[i].args : Traffic μ) ≤ _ := work_start (hvalid _ (List.getElem_mem hi)).origin
    simpa [work, Function.comp_def] using hstart
  have hsteps : (s₀.locals.map net.stepsLeft).sum
      ≤ broadcasts.length * (2 * net.nodes.card + 5) := by
    have hinboxes : ((inboxes.map fun v =>
        ({ node := v, inbox := true, stage := .polling } : NodeThread)).map net.stepsLeft).sum
        = 0 := by
      refine List.sum_eq_zero fun n hn => ?_
      obtain ⟨t, ht, rfl⟩ := List.mem_map.mp hn
      obtain ⟨v, -, rfl⟩ := List.mem_map.mp ht
      rfl
    show ((List.mapIdx _ _ ++ List.map _ _).map net.stepsLeft).sum ≤ _
    rw [List.map_append, List.sum_append, hinboxes, Nat.add_zero]
    refine (List.sum_le_card_nsmul _ (2 * net.nodes.card + 5) fun n hn => ?_).trans (by simp)
    obtain ⟨t, ht, rfl⟩ := List.mem_map.mp hn
    obtain ⟨i, hi, rfl⟩ := List.mem_mapIdx.mp ht
    have hcard := length_peers_le (hvalid _ (List.getElem_mem hi)).origin
    show 2 * (net.peers broadcasts[i].origin).length + 5 ≤ _
    omega
  calc toGo net s₀
      ≤ (2 * net.nodes.card + 5) *
          (broadcasts.length * (net.nodes.card * (net.nodes.card + 1) ^ net.nodes.card))
        + 0 + broadcasts.length * (2 * net.nodes.card + 5) := by
        rw [toGo, hqueued]
        exact Nat.add_le_add (Nat.add_le_add_right (Nat.mul_le_mul_left _ hwork) 0) hsteps
    _ = broadcasts.length * stepBound net := by
        rw [stepBound]
        ring

/--
**Broadcasts by many threads flood the network and stop.**

Any number of threads call `broadcast`, and any number of inbox threads at each node take messages
from its queue and send them on under its mutex. In every interleaving the threads make a bounded
number of steps between their sleeps. As long as the queues can grow no step fails and no thread
waits for ever. When nothing is left to do, each node but the origin of a broadcast has executed it
once for each simple path from the origin, whatever the other broadcasts were.
-/
theorem broadcasts_flood (hvalid : ∀ b ∈ broadcasts, ValidCall net b) {inboxes : List String}
    (hinboxes : ∀ v, v ∈ inboxes ↔ v ∈ net.nodes) {schedule : List Nat}
    (hrun : run (Parties.step (advance net)) (start broadcasts inboxes) schedule = some s) :
    schedule.countP (· < broadcasts.length + inboxes.length)
      ≤ broadcasts.length * stepBound net ∧
    (∀ i t e, s.locals[i]? = some t → s.turn (advance net) i = .error e →
      (e = .waits ∨ e = .returned ∧ t.stage = .returned) ∨
        ∃ v ∈ net.nodes, ¬ (s.shared.incomingMessages v).Fits) ∧
    (∃ rest s', run (Parties.step (advance net)) s rest = some s' ∧
      (Quiet net s' ∨ ∃ v ∈ net.nodes, ¬ (s'.shared.incomingMessages v).Fits)) ∧
    (Quiet net s → ∀ serial b, broadcasts[serial]? = some b →
      s.executions serial b.origin = 0 ∧ ∀ v, v ≠ b.origin →
        (s.executions serial v : ℕ∞) = {P | SimplePath net.Peer b.origin v P}.encard ∧
        (Relation.ReflTransGen net.Peer b.origin v → 1 ≤ s.executions serial v)) := by
  have hstart : Broadcasting net broadcasts (start broadcasts inboxes) := .start hvalid hinboxes
  obtain ⟨h, hcount, -, hend⟩ := Parties.run_ends (Broadcasting net broadcasts)
    (Broadcasting.Final net) (toGo net) (fun s i s' hs hstep => hs.step hvalid hstep)
    (fun s hs => hs.progress hvalid) hrun hstart
  refine ⟨?_, fun i t e ht herror => ?_, hend, fun hq serial b hb => ?_⟩
  · have hlength : (start broadcasts inboxes : NodeThreads μ).locals.length
        = broadcasts.length + inboxes.length := by simp [start]
    rw [hlength] at hcount
    exact hcount.trans (toGo_start hvalid inboxes)
  · have hout := h.outcome hvalid ht
    cases hadv : advance net t s.shared with
    | ok r =>
      rw [Parties.turn_ok ht hadv] at herror
      cases herror
    | error e' =>
      rw [Parties.turn_error ht hadv] at herror
      obtain rfl := Except.error.inj herror
      rw [hadv] at hout
      cases e' with
      | waits => exact .inl (.inl rfl)
      | returned => exact .inl (.inr ⟨rfl, hout⟩)
      | fault => exact .inr hout
  · obtain ⟨hempty, hexecutions⟩ := traffic_quiet hq serial
    have hflooding := h.flooding serial b hb
    refine ⟨?_, fun v hv => ?_⟩
    · rw [← hexecutions]
      exact hflooding.executions_origin
    · rw [← hexecutions]
      refine ⟨hflooding.executions_eq hempty hv, fun hreach => ?_⟩
      obtain ⟨P, hP⟩ := exists_simplePath hreach
      rw [← length_executedPaths]
      exact List.length_pos_of_mem (hflooding.mem_executedPaths hempty hP hv)

/-- Three inbox threads and the caller, which still has the mutex when the first message is read. -/
theorem broadcasts_flood_ring :
    ∃ s : NodeThreads Unit,
      run (Parties.step (advance ring)) (start [⟨"a", "c1", []⟩] ["a", "b", "c"])
        [0, 0, 0, 0, 2, 1, 0, 2, 1, 2, 2, 3, 2, 3, 2, 3, 3, 3, 3, 3] = some s ∧ Quiet ring s ∧
      ∀ v, v ≠ "a" → (s.executions 0 v : ℕ∞) = {P | SimplePath ring.Peer "a" v P}.encard := by
  have hquiet : (run (Parties.step (advance ring)) (start [⟨"a", "c1", []⟩] ["a", "b", "c"])
      [0, 0, 0, 0, 2, 1, 0, 2, 1, 2, 2, 3, 2, 3, 2, 3, 3, 3, 3, 3]).any
        (fun s => decide (Quiet ring s)) = true := by decide +kernel
  obtain ⟨s, hrun, hq⟩ := (Option.any_eq_true _ _).mp hquiet
  have hvalid : ∀ b ∈ [(⟨"a", "c1", []⟩ : BroadcastCall)], ValidCall ring b :=
    List.forall_mem_singleton.mpr ⟨by decide, by decide, fun _ _ => ⟨(), rfl⟩⟩
  have hinboxes : ∀ v, v ∈ ["a", "b", "c"] ↔ v ∈ ring.nodes := fun v => by
    simp [ring]
  obtain ⟨-, -, -, hflood⟩ := broadcasts_flood hvalid hinboxes hrun
  have hq : Quiet ring s := of_decide_eq_true hq
  exact ⟨s, hrun, hq, fun v hv => ((hflood hq 0 _ rfl).2 v hv).1⟩

end NodeThreads

end AttentionBroker
