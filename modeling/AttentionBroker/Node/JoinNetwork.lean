import Mathlib.Data.Finset.Filter
import Mathlib.Data.List.Perm.Basic
import AttentionBroker.Node.CacheNode

/-!
# Joining the cache network

A broadcast of a client goes to the server, which sends it on to the other clients that it knows
at that moment, and one of the server goes to the clients; a client sends nothing on. So `Route`
says where a copy can be and which nodes it names, and `Settled` that a copy goes to a node once:
no broadcast is in flight to a node, or executed by it, more than once in all.

The server learns of a client from the broadcast that it sends on to the others (`announced`).
-/

namespace AttentionBroker.CacheNetwork

open Infra SynchronousGRPC AtomSpaceNode

variable {μ : Type} {net : CacheNetwork μ} {s s' : State μ} {i n : Nat} {v c : String} {d : Delivery}
  {o : Broadcast} {command : String} {args : List String}

/-! ## The invariant -/

/-- Where a copy goes, and the nodes that it names. -/
inductive Route (net : CacheNetwork μ) (origin : String) : String → List String → Prop
  | up (ho : origin ∈ net.clients) : Route net origin net.server [origin]
  | down {c : String} (ho : origin = net.server) (hc : c ∈ net.clients) :
      Route net origin c [net.server]
  | relayed {c : String} (ho : origin ∈ net.clients) (hc : c ∈ net.clients) (hne : c ≠ origin) :
      Route net origin c [origin, net.server]

/-- What a message in flight is a copy of. -/
structure CopyOf (net : CacheNetwork μ) (s : State μ) (o : Broadcast) (d : Delivery) : Prop where
  isBroadcast : d.data.isBroadcast = true
  command : d.data.command = o.command
  args : d.data.args = o.args
  route : Route net o.origin d.recipient d.data.visitedRecipients
  joined : d.recipient ∈ s.joined

/-- The nodes a broadcast has got to or is on its way to, with its number. -/
def handled (s : State μ) : List (Nat × String) :=
  s.inFlight.map (fun m => (m.1, m.2.recipient)) ++ s.executed.map fun e => (e.1, e.2.node)

/-- A broadcast of `join_network`, or of a command that all nodes know. -/
def Known (net : CacheNetwork μ) (o : Broadcast) : Prop :=
  o.command = nodeJoinedNetworkCommand ∧ o.args = [o.origin] ∨
    o.command ≠ nodeJoinedNetworkCommand ∧ net.Recognised o.command o.args

/-- The invariant of the network. -/
structure Settled (net : CacheNetwork μ) (s : State μ) : Prop where
  joined : ∀ v ∈ s.joined, v = net.server ∨ v ∈ net.clients ∧ net.server ∈ s.joined
  client : ∀ c ∈ net.clients, s.peers c = [net.server]
  server : ∀ p ∈ s.peers net.server, p ∈ net.clients ∧ p ∈ s.joined
  nodup : (s.peers net.server).Nodup
  broadcasts : ∀ o ∈ s.broadcasts, o.origin ∈ s.joined ∧ net.Known o
  inFlight : ∀ m ∈ s.inFlight, ∃ o, s.broadcasts[m.1]? = some o ∧ CopyOf net s o m.2
  executed : ∀ e ∈ s.executed, ∃ o, s.broadcasts[e.1]? = some o ∧ e.2.node ≠ o.origin
  once : (handled s).Nodup
  /-- A broadcast of a client gets to the server. -/
  up : ∀ n o, s.broadcasts[n]? = some o → o.origin ∈ net.clients → (n, net.server) ∈ handled s
  /-- It gets to the other clients after the server has executed it. -/
  relayed : ∀ n o c, s.broadcasts[n]? = some o → o.origin ∈ net.clients → c ∈ net.clients →
    (n, c) ∈ handled s → (n, net.server) ∈ s.executed.map fun e => (e.1, e.2.node)
  /-- The server knows a client that has joined, or will. -/
  announced : ∀ c ∈ net.clients, c ∈ s.joined → c ∈ s.peers net.server ∨
    ∃ m ∈ s.inFlight, m.2.recipient = net.server ∧ m.2.data.command = nodeJoinedNetworkCommand ∧
      m.2.data.args = [c]

theorem client_ne (hc : c ∈ net.clients) : c ≠ net.server := by
  rintro rfl
  exact net.server_notMem hc

theorem Route.unvisited {visited : List String} {origin : String}
    (h : Route net origin v visited) : v ∉ visited ∧ v ≠ origin := by
  cases h with
  | up ho => simpa using (client_ne ho).symm
  | down ho hc =>
    subst ho
    simpa using client_ne hc
  | relayed ho hc hne => simpa [hne] using client_ne hc

theorem Route.server_mem {visited : List String} {origin : String}
    (h : Route net origin v visited) (hv : v ∈ net.clients) : net.server ∈ visited := by
  cases h with
  | up => exact absurd hv net.server_notMem
  | down => exact List.mem_singleton_self _
  | relayed => simp

/-- What goes to the server comes from the client that it names. -/
theorem Route.to_server {visited : List String} {origin : String}
    (h : Route net origin net.server visited) : origin ∈ net.clients ∧ visited = [origin] := by
  generalize hv : net.server = v at h
  cases h with
  | up ho => exact ⟨ho, rfl⟩
  | down _ hc => exact absurd hv.symm (client_ne hc)
  | relayed _ hc => exact absurd hv.symm (client_ne hc)

theorem settled_start (net : CacheNetwork μ) : Settled net net.start where
  joined := by simp [start]
  client c hc := by simp [start, node, client_ne hc, CacheNode.initialPeers]
  server := by simp [start, node, CacheNode.initialPeers]
  nodup := by simp [start, node, CacheNode.initialPeers]
  broadcasts := by simp [start]
  inFlight := by simp [start]
  executed := by simp [start]
  once := by simp [start, handled]
  up := by simp [start]
  relayed := by simp [start]
  announced := by simp [start]

/-! ## What a step does -/

/-- A broadcast of `join_network` names the node it comes from. -/
theorem Known.args_of_join (h : net.Known o) (hc : o.command = nodeJoinedNetworkCommand) :
    o.args = [o.origin] := by
  rcases h with ⟨-, ha⟩ | ⟨hne, -⟩
  · exact ha
  · exact absurd hc hne

/-- The message that a node makes of a broadcast, which is `NodeJoinedNetwork` or changes nothing. -/
theorem Known.message (h : net.Known o) (hv : v ∈ insert net.server net.clients) :
    ∃ message, CacheNode.messageFactory (net.application v) o.command o.args = some message ∧
      ∀ (node : CacheNode) (peers : List String), node.act peers message
        = if o.command = nodeJoinedNetworkCommand then node.nodeJoinedNetwork peers o.origin
          else peers := by
  rcases h with ⟨hc, ha⟩ | ⟨hc, hr⟩
  · refine ⟨.nodeJoinedNetwork o.origin, ?_, fun node peers => ?_⟩
    · simp [CacheNode.messageFactory, messageFactory, hc, ha]
    · rw [if_pos hc]
      rfl
  · have hsome := hr v hv
    have hnone : (messageFactory o.command o.args : Option (Message μ)) = none := if_neg hc
    unfold CacheNode.messageFactory at hsome ⊢
    rw [hnone] at hsome ⊢
    obtain ⟨m, hm⟩ := Option.isSome_iff_exists.mp (Option.isSome_map ▸ hsome)
    refine ⟨.application m, by rw [hm]; rfl, fun node peers => ?_⟩
    rw [if_neg hc]
    rfl

/-- The copies that a node sends on. -/
def forwarded (s : State μ) (n : Nat) (d : Delivery) : List (Nat × Delivery) :=
  ((s.peers d.recipient).filter fun target => target ∉ d.data.visitedRecipients).map
    fun target => (n, { recipient := target, data := d.data.addVisitedRecipients d.recipient })

/-- **A message that is taken is sent on and executed.** -/
theorem Settled.receive (h : Settled net s) (hm : s.inFlight[i]? = some (n, d)) :
    ∃ o e, s.broadcasts[n]? = some o ∧ CopyOf net s o d ∧ e.node = d.recipient ∧
      net.receive s i = some { s with
        peers := Function.update s.peers d.recipient
          (if o.command = nodeJoinedNetworkCommand
            then (net.node d.recipient).nodeJoinedNetwork (s.peers d.recipient) o.origin
            else s.peers d.recipient)
        inFlight := s.inFlight.eraseIdx i ++ forwarded s n d
        executed := s.executed ++ [(n, e)] } := by
  obtain ⟨o, ho, hcopy⟩ := h.inFlight _ (List.mem_of_getElem? hm)
  have hknown := (h.broadcasts o (List.mem_of_getElem? ho)).2
  have hv : d.recipient ∈ insert net.server net.clients := by
    rw [Finset.mem_insert]
    exact (h.joined _ hcopy.joined).imp_right And.left
  obtain ⟨message, hmessage, hact⟩ := hknown.message hv
  rw [← hcopy.command, ← hcopy.args] at hmessage
  have hinbox : inbox d.recipient (s.peers d.recipient) _ d.data = some (_, _) :=
    inbox_new hcopy.isBroadcast hcopy.route.unvisited.1 hmessage
  refine ⟨o, { node := d.recipient, message := message
               data := d.data.addVisitedRecipients d.recipient }, ho, hcopy, rfl, ?_⟩
  unfold CacheNetwork.receive
  simp only [hm, Option.bind_eq_bind, Option.bind_some, if_pos hcopy.joined, hinbox, List.foldl_cons,
    List.foldl_nil, hact, List.map_map, List.map_cons, List.map_nil]
  rfl

/-- A client sends nothing on: it knows the server only, which every copy has visited. -/
theorem Settled.forwarded_client (h : Settled net s) (hcopy : CopyOf net s o d)
    (hc : d.recipient ∈ net.clients) : forwarded s n d = [] := by
  have hvisited := hcopy.route.server_mem hc
  simp [forwarded, h.client _ hc, hvisited]

/-- The state after a message has been taken: `e` has been executed and `sent` has been sent on. -/
def State.took (s : State μ) (i n : Nat) (e : Execution (Message μ)) (peers : String → List String)
    (sent : List (Nat × Delivery)) : State μ :=
  { s with
    peers := peers
    inFlight := s.inFlight.eraseIdx i ++ sent
    executed := s.executed ++ [(n, e)] }

/-- Where a message goes is not forgotten when it is taken. -/
theorem handled_took {e : Execution (Message μ)} (peers : String → List String)
    (hm : s.inFlight[i]? = some (n, d)) (he : e.node = d.recipient)
    (sent : List (Nat × Delivery)) :
    (handled (s.took i n e peers sent)).Perm
      (handled s ++ sent.map fun m => (m.1, m.2.recipient)) := by
  obtain ⟨hi, hget⟩ := List.getElem?_eq_some_iff.mp hm
  have hperm := (List.getElem_cons_eraseIdx_perm hi).map fun m => (m.1, m.2.recipient)
  rw [hget, List.map_cons] at hperm
  unfold handled State.took
  simp only [List.map_append, List.map_cons, List.map_nil, he]
  refine List.Perm.trans ?_ ((hperm.append_right _).append_right _)
  refine List.perm_iff_count.mpr fun x => ?_
  simp only [List.count_append, List.count_cons, List.count_nil]
  omega

theorem mem_eraseIdx_or {m : Nat × Delivery} (hm : s.inFlight[i]? = some (n, d))
    (h : m ∈ s.inFlight) : m = (n, d) ∨ m ∈ s.inFlight.eraseIdx i := by
  obtain ⟨hi, hget⟩ := List.getElem?_eq_some_iff.mp hm
  have hperm := List.getElem_cons_eraseIdx_perm hi
  rw [hget] at hperm
  exact List.mem_cons.mp (hperm.mem_iff.mpr h)

/-- A copy stays one as long as nobody leaves. -/
theorem CopyOf.mono (hcopy : CopyOf net s o d) (hjoined : s.joined ⊆ s'.joined) :
    CopyOf net s' o d :=
  { hcopy with joined := hjoined hcopy.joined }

/--
The invariant after a message has been taken. Only the server sends it on, to nodes that have not
been sent it before, and only the server learns of a client.
-/
theorem Settled.took {e : Execution (Message μ)} {peers : String → List String}
    {sent : List (Nat × Delivery)} (h : Settled net s) (hm : s.inFlight[i]? = some (n, d))
    (ho : s.broadcasts[n]? = some o) (hcopy : CopyOf net s o d) (he : e.node = d.recipient)
    (hclient : ∀ c ∈ net.clients, peers c = [net.server])
    (hserver : ∀ p ∈ peers net.server, p ∈ net.clients ∧ p ∈ s.joined)
    (hnodup : (peers net.server).Nodup)
    (hsent : ∀ m ∈ sent, m.1 = n ∧ CopyOf net s o m.2 ∧ d.recipient = net.server)
    (honce : (handled s ++ sent.map fun m => (m.1, m.2.recipient)).Nodup)
    (hkept : s.peers net.server ⊆ peers net.server)
    (hlearn : d.recipient = net.server → d.data.command = nodeJoinedNetworkCommand →
      ∀ c, d.data.args = [c] → c ∈ peers net.server) :
    Settled net (s.took i n e peers sent) := by
  have hperm := handled_took peers hm he sent
  have hexecuted : (n, e.node) ∈ (s.executed ++ [(n, e)]).map fun e => (e.1, e.2.node) :=
    List.mem_map.mpr ⟨(n, e), List.mem_append_right _ (List.mem_singleton_self _), rfl⟩
  exact
    { joined := h.joined
      client := hclient
      server := hserver
      nodup := hnodup
      broadcasts := h.broadcasts
      inFlight := List.forall_mem_append.mpr ⟨fun m hm' => by
        obtain ⟨o', ho', hcopy'⟩ := h.inFlight m (List.mem_of_mem_eraseIdx hm')
        exact ⟨o', ho', hcopy'.mono subset_rfl⟩, fun m hm' => by
        obtain ⟨hn, hcopy', -⟩ := hsent m hm'
        exact ⟨o, hn ▸ ho, hcopy'.mono subset_rfl⟩⟩
      executed := List.forall_mem_append.mpr ⟨h.executed, List.forall_mem_singleton.mpr
        ⟨o, ho, he ▸ hcopy.route.unvisited.2⟩⟩
      once := hperm.nodup_iff.mpr honce
      up := fun n' o' ho' hc' => hperm.mem_iff.mpr (List.mem_append_left _ (h.up n' o' ho' hc'))
      relayed := fun n' o' c ho' hc' hcc hmem => by
        rcases List.mem_append.mp (hperm.mem_iff.mp hmem) with hmem | hmem
        · have hbefore := h.relayed n' o' c ho' hc' hcc hmem
          exact List.map_append ▸ List.mem_append_left _ hbefore
        -- the server has just executed what it sends on
        · obtain ⟨m, hm', hx⟩ := List.mem_map.mp hmem
          obtain ⟨hn, -, hd⟩ := hsent m hm'
          obtain rfl : n = n' := hn.symm.trans (congrArg Prod.fst hx)
          rwa [he, hd] at hexecuted
      announced := fun c hcc hj => by
        rcases h.announced c hcc hj with hp | ⟨m, hm', hto, hcmd, hargs⟩
        · exact .inl (hkept hp)
        · rcases mem_eraseIdx_or hm hm' with rfl | hm'
          · exact .inl (hlearn hto hcmd c hargs)
          · exact .inr ⟨m, List.mem_append_left _ hm', hto, hcmd, hargs⟩ }

/-! ## A client takes a message -/

theorem Settled.receive_client (h : Settled net s) (hm : s.inFlight[i]? = some (n, d))
    (hc : d.recipient ∈ net.clients) :
    ∃ s', net.receive s i = some s' ∧ Settled net s' := by
  obtain ⟨o, e, ho, hcopy, he, hrun⟩ := h.receive hm
  have hpeers : (if o.command = nodeJoinedNetworkCommand
      then (net.node d.recipient).nodeJoinedNetwork (s.peers d.recipient) o.origin
      else s.peers d.recipient) = s.peers d.recipient := by
    simp [node, client_ne hc, CacheNode.nodeJoinedNetwork]
  rw [hpeers, Function.update_eq_self, h.forwarded_client hcopy hc] at hrun
  exact ⟨_, hrun, h.took hm ho hcopy he h.client h.server h.nodup (List.forall_mem_nil _)
    (by simpa using h.once) (List.Subset.refl _) fun hd => absurd hd (client_ne hc)⟩

/-! ## The server takes a message -/

/-- The other clients have not been sent the broadcast before. -/
theorem Settled.fresh (h : Settled net s) (hm : s.inFlight[i]? = some (n, d))
    (hd : d.recipient = net.server) (ho : s.broadcasts[n]? = some o) (hc : o.origin ∈ net.clients)
    (hcc : c ∈ net.clients) : (n, c) ∉ handled s := by
  intro hmem
  have hex := h.relayed n o c ho hc hcc hmem
  have hin : (n, net.server) ∈ s.inFlight.map fun m => (m.1, m.2.recipient) :=
    List.mem_map.mpr ⟨(n, d), List.mem_of_getElem? hm, by rw [hd]⟩
  exact (List.nodup_append.mp h.once).2.2 _ hin _ hex rfl

/-- The server sends the broadcast of a client on to the other clients. -/
theorem Settled.mem_forwarded {m : Nat × Delivery} (h : Settled net s) (hcopy : CopyOf net s o d)
    (hd : d.recipient = net.server) (hm : m ∈ forwarded s n d) :
    m.1 = n ∧ CopyOf net s o m.2 ∧ m.2.recipient ∈ net.clients := by
  obtain ⟨p, hp, rfl⟩ := List.mem_map.mp hm
  obtain ⟨hp, hne⟩ := List.mem_filter.mp hp
  rw [hd] at hp
  have hroute := hcopy.route
  rw [hd] at hroute
  obtain ⟨horigin, hvisited⟩ := hroute.to_server
  obtain ⟨hpc, hpj⟩ := h.server p hp
  refine ⟨rfl, ⟨hcopy.isBroadcast, hcopy.command, hcopy.args, ?_, hpj⟩, hpc⟩
  show Route net o.origin p (d.data.visitedRecipients ++ [d.recipient])
  rw [hvisited, hd]
  exact Route.relayed horigin hpc (by simpa [hvisited] using hne)

theorem Settled.forwarded_once (h : Settled net s) (hm : s.inFlight[i]? = some (n, d))
    (hd : d.recipient = net.server) (ho : s.broadcasts[n]? = some o) (hcopy : CopyOf net s o d) :
    (handled s ++ (forwarded s n d).map fun m => (m.1, m.2.recipient)).Nodup := by
  have horigin := (Route.to_server (hd ▸ hcopy.route)).1
  refine List.nodup_append.mpr ⟨h.once, ?_, ?_⟩
  · have hsent : (s.peers d.recipient).Nodup := hd ▸ h.nodup
    rw [forwarded, List.map_map]
    exact (hsent.filter _).map fun p q hpq => (Prod.mk.inj hpq).2
  · rintro x hx y hy rfl
    obtain ⟨m, hm', rfl⟩ := List.mem_map.mp hy
    obtain ⟨hn, -, hc⟩ := h.mem_forwarded hcopy hd hm'
    exact h.fresh hm hd ho horigin hc (hn ▸ hx)

theorem Settled.receive_server (h : Settled net s) (hm : s.inFlight[i]? = some (n, d))
    (hd : d.recipient = net.server) :
    ∃ s', net.receive s i = some s' ∧ Settled net s' := by
  obtain ⟨o, e, ho, hcopy, he, hrun⟩ := h.receive hm
  obtain ⟨hjoined, hknown⟩ := h.broadcasts o (List.mem_of_getElem? ho)
  have horigin := (Route.to_server (hd ▸ hcopy.route)).1
  let peers := if o.command = nodeJoinedNetworkCommand then (s.peers net.server).insert o.origin
    else s.peers net.server
  have hpeers : (if o.command = nodeJoinedNetworkCommand
      then (net.node d.recipient).nodeJoinedNetwork (s.peers d.recipient) o.origin
      else s.peers d.recipient) = peers := by
    simp [node, hd, CacheNode.nodeJoinedNetwork, peers]
  have hself : Function.update s.peers d.recipient peers net.server = peers := by
    rw [hd, Function.update_self]
  have hmem : ∀ p, p ∈ peers ↔
      p ∈ s.peers net.server ∨ o.command = nodeJoinedNetworkCommand ∧ p = o.origin := by
    intro p
    by_cases hj : o.command = nodeJoinedNetworkCommand
    · simp [peers, hj, List.mem_insert_iff, or_comm]
    · simp [peers, hj]
  rw [hpeers] at hrun
  refine ⟨_, hrun, h.took hm ho hcopy he (fun c hc => ?_) (fun p hp => ?_) ?_ (fun m hm' => ?_)
    (h.forwarded_once hm hd ho hcopy) (fun p hp => ?_) fun _ hcmd c hargs => ?_⟩
  · rw [hd, Function.update_of_ne (client_ne hc), h.client c hc]
  · rw [hself, hmem] at hp
    rcases hp with hp | ⟨-, rfl⟩
    · exact h.server p hp
    · exact ⟨horigin, hjoined⟩
  · rw [hself]
    unfold peers
    split
    · exact h.nodup.insert
    · exact h.nodup
  · obtain ⟨hn, hcopy', -⟩ := h.mem_forwarded hcopy hd hm'
    exact ⟨hn, hcopy', hd⟩
  · rw [hself, hmem]
    exact .inl hp
  · have hjoin : o.command = nodeJoinedNetworkCommand := hcopy.command.symm.trans hcmd
    have hsame : [c] = [o.origin] := by
      rw [← hknown.args_of_join hjoin, ← hcopy.args, hargs]
    rw [hself, hmem]
    exact .inr ⟨hjoin, List.singleton_inj.mp hsame⟩

/-- **A message in flight can be taken**, and the invariant holds after it. -/
theorem Settled.receive_settled (h : Settled net s) (hm : s.inFlight[i]? = some (n, d)) :
    ∃ s', net.receive s i = some s' ∧ Settled net s' := by
  obtain ⟨o, -, hcopy⟩ := h.inFlight _ (List.mem_of_getElem? hm)
  rcases h.joined _ hcopy.joined with hd | ⟨hc, -⟩
  · exact h.receive_server hm hd
  · exact h.receive_client hm hc

/-! ## A node broadcasts -/

theorem getElem?_snoc {l : List Broadcast} {x : Broadcast} :
    (l ++ [x])[n]? = some o ↔ l[n]? = some o ∨ n = l.length ∧ x = o := by
  rcases Nat.lt_trichotomy n l.length with hn | rfl | hn
  · rw [List.getElem?_append_left hn]
    simp [Nat.ne_of_lt hn]
  · simp
  · have hsnoc : (l ++ [x])[n]? = none := List.getElem?_eq_none (by simp; omega)
    rw [hsnoc, List.getElem?_eq_none (Nat.le_of_lt hn)]
    simp [Nat.ne_of_gt hn]

/-- The copies that a node sends of its own broadcast. -/
theorem mem_sent {m : Nat × Delivery} (h : m ∈ (SynchronousGRPC.broadcast v (s.peers v) command
    args).map fun d => (s.broadcasts.length, d)) :
    ∃ p ∈ s.peers v, m = (s.broadcasts.length,
      { recipient := p, data := { command := command, args := args, sender := v
                                  isBroadcast := true, visitedRecipients := [v] } }) := by
  obtain ⟨d, hd, rfl⟩ := List.mem_map.mp h
  obtain ⟨p, hp, rfl⟩ := List.mem_map.mp hd
  exact ⟨p, hp, rfl⟩

/-- Where the new copies go. -/
theorem handled_broadcast (s : State μ) (v command : String) (args : List String) :
    (handled (s.broadcast v command args)).Perm
      (handled s ++ (s.peers v).map fun p => (s.broadcasts.length, p)) := by
  unfold handled State.broadcast SynchronousGRPC.broadcast
  simp only [List.map_append, List.map_map]
  refine List.perm_iff_count.mpr fun x => ?_
  simp only [List.count_append]
  show _ + List.count x ((s.peers v).map fun p => (s.broadcasts.length, p)) + _ = _
  omega

/-- No node has got a broadcast before it was made. -/
theorem Settled.number_lt (h : Settled net s) {x : Nat × String} (hx : x ∈ handled s) :
    x.1 < s.broadcasts.length := by
  rcases List.mem_append.mp hx with hx | hx
  · obtain ⟨m, hm, rfl⟩ := List.mem_map.mp hx
    obtain ⟨o, ho, -⟩ := h.inFlight m hm
    exact (List.getElem?_eq_some_iff.mp ho).1
  · obtain ⟨e, he, rfl⟩ := List.mem_map.mp hx
    obtain ⟨o, ho, -⟩ := h.executed e he
    exact (List.getElem?_eq_some_iff.mp ho).1

/-- A copy goes from a client to the server, or from the server to the clients. -/
theorem Settled.peers_route (h : Settled net s)
    (hv : v = net.server ∨ v ∈ net.clients ∧ net.server ∈ s.joined) {p : String}
    (hp : p ∈ s.peers v) : p ∈ s.joined ∧ Route net v p [v] := by
  rcases hv with rfl | ⟨hvc, hserver⟩
  · obtain ⟨hpc, hpj⟩ := h.server p hp
    exact ⟨hpj, .down rfl hpc⟩
  · rw [h.client v hvc, List.mem_singleton] at hp
    subst hp
    exact ⟨hserver, .up hvc⟩

theorem Settled.peers_nodup (h : Settled net s) (hv : v = net.server ∨ v ∈ net.clients) :
    (s.peers v).Nodup := by
  rcases hv with rfl | hvc
  · exact h.nodup
  · rw [h.client v hvc]
    exact List.nodup_singleton _

theorem Settled.server_mem_peers (h : Settled net s) (hv : v ∈ net.clients) :
    net.server ∈ s.peers v := by
  rw [h.client v hv]
  exact List.mem_singleton_self _

theorem Settled.broadcast_once (h : Settled net s) (hv : v = net.server ∨ v ∈ net.clients) :
    (handled s ++ (s.peers v).map fun p => (s.broadcasts.length, p)).Nodup := by
  refine List.nodup_append.mpr ⟨h.once, ?_, ?_⟩
  · exact (h.peers_nodup hv).map fun p q hpq => (Prod.mk.inj hpq).2
  · rintro x hx y hy rfl
    obtain ⟨p, -, rfl⟩ := List.mem_map.mp hy
    exact Nat.lt_irrefl _ (h.number_lt hx)

/-- A node that has joined before broadcasts a command, or one that joins announces itself. -/
theorem Settled.broadcast (h : Settled net s)
    (hv : v = net.server ∨ v ∈ net.clients ∧ net.server ∈ s.joined)
    (hknown : net.Known { origin := v, command := command, args := args })
    (hnew : v ∈ s.joined ∨ command = nodeJoinedNetworkCommand) :
    Settled net ({ s with joined := insert v s.joined }.broadcast v command args) := by
  have hperm := handled_broadcast { s with joined := insert v s.joined } v command args
  have hsub : s.joined ⊆ insert v s.joined := Finset.subset_insert v s.joined
  have hold : ∀ {n : Nat} {o : Broadcast}, s.broadcasts[n]? = some o →
      (s.broadcasts ++ [{ origin := v, command := command, args := args }])[n]? = some o :=
    fun ho => getElem?_snoc.mpr (.inl ho)
  exact
    { joined := fun w hw => by
        rcases Finset.mem_insert.mp hw with rfl | hw
        · exact hv.imp_right fun hv => ⟨hv.1, hsub hv.2⟩
        · exact (h.joined w hw).imp_right fun hw => ⟨hw.1, hsub hw.2⟩
      client := h.client
      server := fun p hp => ⟨(h.server p hp).1, hsub (h.server p hp).2⟩
      nodup := h.nodup
      broadcasts := List.forall_mem_append.mpr
        ⟨fun o ho => ⟨hsub (h.broadcasts o ho).1, (h.broadcasts o ho).2⟩,
          List.forall_mem_singleton.mpr ⟨Finset.mem_insert_self v s.joined, hknown⟩⟩
      inFlight := List.forall_mem_append.mpr ⟨fun m hm => by
        obtain ⟨o, ho, hcopy⟩ := h.inFlight m hm
        exact ⟨o, hold ho, hcopy.mono hsub⟩, fun m hm => by
        obtain ⟨p, hp, rfl⟩ := mem_sent hm
        obtain ⟨hjoined, hroute⟩ := h.peers_route hv hp
        exact ⟨_, getElem?_snoc.mpr (.inr ⟨rfl, rfl⟩), rfl, rfl, rfl, hroute, hsub hjoined⟩⟩
      executed := fun e he => by
        obtain ⟨o, ho, hne⟩ := h.executed e he
        exact ⟨o, hold ho, hne⟩
      once := hperm.nodup_iff.mpr (h.broadcast_once (hv.imp_right And.left))
      up := fun n o ho hc => by
        refine hperm.mem_iff.mpr (List.mem_append.mpr ?_)
        rcases getElem?_snoc.mp ho with ho | ⟨rfl, rfl⟩
        · exact .inl (h.up n o ho hc)
        · exact .inr (List.mem_map_of_mem (h.server_mem_peers hc))
      relayed := fun n o c ho hc hcc hmem => by
        rcases List.mem_append.mp (hperm.mem_iff.mp hmem) with hmem | hmem
        · have hlt : n < s.broadcasts.length := h.number_lt hmem
          rcases getElem?_snoc.mp ho with ho | ⟨rfl, -⟩
          · exact h.relayed n o c ho hc hcc hmem
          · exact absurd hlt (Nat.lt_irrefl _)
        · obtain ⟨p, hp, hx⟩ := List.mem_map.mp hmem
          obtain ⟨rfl, rfl⟩ := Prod.mk.inj hx
          rcases getElem?_snoc.mp ho with ho | ⟨-, rfl⟩
          · exact absurd (List.getElem?_eq_some_iff.mp ho).1 (Nat.lt_irrefl _)
          · change p ∈ s.peers v at hp
            rw [h.client v hc, List.mem_singleton] at hp
            exact absurd hp (client_ne hcc)
      announced := fun c hcc hj => by
        by_cases hj' : c ∈ s.joined
        · refine (h.announced c hcc hj').imp_right ?_
          rintro ⟨m, hm, hrest⟩
          exact ⟨m, List.mem_append_left _ hm, hrest⟩
        -- the client that joins has sent its id to the server
        · obtain rfl : c = v := (Finset.mem_insert.mp hj).resolve_right hj'
          have hjoin := hnew.resolve_left hj'
          exact .inr ⟨_, List.mem_append_right _
            (List.mem_map_of_mem (List.mem_map_of_mem (h.server_mem_peers hcc))), rfl, hjoin,
            hknown.args_of_join hjoin⟩ }

/-! ## Whole runs -/

theorem Settled.step {a : Action} (h : Settled net s) (ha : net.Permitted s a)
    (hstep : net.step s a = some s') : Settled net s' := by
  cases a with
  | join v =>
    change net.join s v = some s' at hstep
    unfold join at hstep
    dsimp only at hstep
    split at hstep
    · obtain rfl := Option.some.inj hstep
      exact h.broadcast ha.2 (.inl ⟨rfl, rfl⟩) (.inr rfl)
    · cases hstep
  | broadcast v command args =>
    obtain ⟨hj, hne, hr⟩ := ha
    have hsame : { s with joined := insert v s.joined } = s := by
      rw [Finset.insert_eq_of_mem hj]
    have hs' := h.broadcast (h.joined v hj) (.inr ⟨hne, hr⟩) (.inl hj)
    rw [hsame] at hs'
    exact Option.some.inj hstep ▸ hs'
  | receive i =>
    change net.receive s i = some s' at hstep
    obtain ⟨m, hm, -⟩ := Option.bind_eq_some_iff.mp hstep
    obtain ⟨s₁, h₁, hs₁⟩ := h.receive_settled hm
    exact Option.some.inj (h₁.symm.trans hstep) ▸ hs₁

theorem Settled.nodup_executed (h : Settled net s) :
    (s.executed.map fun e => (e.1, e.2.node)).Nodup :=
  (List.nodup_append.mp h.once).2.1

theorem executions_eq_count (s : State μ) (n : Nat) (v : String) :
    s.executions n v = (s.executed.map fun e => (e.1, e.2.node)).count (n, v) := by
  rw [List.count, List.countP_map, State.executions]
  refine List.countP_congr fun e _ => ?_
  simp [Prod.ext_iff]

/-- The server knows the clients that have joined when it has executed what it got from them. -/
theorem Settled.peers_eq (h : Settled net s) (hempty : s.inFlight = []) :
    (s.peers net.server).toFinset = net.clients.filter (· ∈ s.joined) := by
  ext c
  rw [List.mem_toFinset, Finset.mem_filter]
  constructor
  · exact h.server c
  · rintro ⟨hc, hj⟩
    refine (h.announced c hc hj).resolve_right ?_
    rintro ⟨m, hm, -⟩
    rw [hempty] at hm
    cases hm

variable {schedule : List Action}

/--
**The join protocol of the cache network.**

Whatever order the joins, the other broadcasts and the inbox steps come in: a node executes a
broadcast at most once and never its own, a client knows the server only, the server knows clients
that have joined, and any message in flight can be taken. When none is left, the server has
executed every broadcast of a client exactly once and knows exactly the clients that have joined.
-/
theorem joins_known (hall : AllSteps net.step net.Permitted net.start schedule)
    (hrun : run net.step net.start schedule = some s) :
    (∀ n v, s.executions n v ≤ 1) ∧
    (∀ n o, s.broadcasts[n]? = some o → s.executions n o.origin = 0) ∧
    (∀ c ∈ net.clients, s.peers c = [net.server]) ∧
    (∀ p ∈ s.peers net.server, p ∈ net.clients ∧ p ∈ s.joined) ∧
    (∀ i < s.inFlight.length, ∃ s', net.step s (.receive i) = some s') ∧
    (s.inFlight = [] →
      (∀ n o, s.broadcasts[n]? = some o → o.origin ∈ net.clients →
        s.executions n net.server = 1) ∧
      (s.peers net.server).toFinset = net.clients.filter (· ∈ s.joined)) := by
  have h : Settled net s := run_invariant (Settled net) (fun _ _ _ h ha hstep => h.step ha hstep)
    schedule _ s hall hrun (settled_start net)
  refine ⟨fun n v => ?_, fun n o ho => ?_, h.client, h.server, fun i hi => ?_, fun hempty =>
    ⟨fun n o ho hc => ?_, h.peers_eq hempty⟩⟩
  · rw [executions_eq_count]
    exact List.nodup_iff_count_le_one.mp h.nodup_executed _
  · rw [executions_eq_count]
    refine List.count_eq_zero_of_not_mem fun hmem => ?_
    obtain ⟨e, he, hx⟩ := List.mem_map.mp hmem
    obtain ⟨rfl, hnode⟩ := Prod.mk.inj hx
    obtain ⟨o', ho', hne⟩ := h.executed e he
    exact hne (hnode.trans (congrArg Broadcast.origin (Option.some.inj (ho.symm.trans ho'))))
  · obtain ⟨s', hs', -⟩ := h.receive_settled (List.getElem?_eq_getElem hi)
    exact ⟨s', hs'⟩
  · rw [executions_eq_count]
    have hup := h.up n o ho hc
    unfold handled at hup
    rw [hempty, List.map_nil, List.nil_append] at hup
    exact List.count_eq_one_of_mem h.nodup_executed hup

/-- A server and two clients of an application with one command. -/
def twoClients : CacheNetwork Unit where
  server := "s"
  clients := {"a", "b"}
  server_notMem := by decide
  application _ command _ := if command = "c1" then some () else none

/-- Both clients join, and a broadcast of the server overtakes what it sends on for the second. -/
def twoJoins : List Action :=
  [.join "s", .join "a", .join "b", .receive 0, .broadcast "s" "c1" [], .receive 0, .receive 0,
    .receive 0]

theorem joins_known_two :
    ∃ s, run twoClients.step twoClients.start twoJoins = some s ∧
      (∀ n v, s.executions n v ≤ 1) ∧
      (∀ n o, s.broadcasts[n]? = some o → s.executions n o.origin = 0) ∧
      (∀ c ∈ twoClients.clients, s.peers c = [twoClients.server]) ∧
      (∀ p ∈ s.peers twoClients.server, p ∈ twoClients.clients ∧ p ∈ s.joined) ∧
      (∀ i < s.inFlight.length, ∃ s', twoClients.step s (.receive i) = some s') ∧
      (s.inFlight = [] →
        (∀ n o, s.broadcasts[n]? = some o → o.origin ∈ twoClients.clients →
          s.executions n twoClients.server = 1) ∧
        (s.peers twoClients.server).toFinset = twoClients.clients.filter (· ∈ s.joined)) := by
  have hall : AllSteps twoClients.step twoClients.Permitted twoClients.start twoJoins := by
    decide +kernel
  have hsome : (run twoClients.step twoClients.start twoJoins).isSome = true := by decide +kernel
  obtain ⟨s, hrun⟩ := Option.isSome_iff_exists.mp hsome
  exact ⟨s, hrun, joins_known hall hrun⟩

end AttentionBroker.CacheNetwork
