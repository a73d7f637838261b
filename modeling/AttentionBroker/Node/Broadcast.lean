import Mathlib.Data.Set.Card
import AttentionBroker.Infra.SimplePath
import AttentionBroker.Node.MessageBroker

/-!
# Broadcasts

Each copy of a broadcast carries the nodes that it has visited, so it travels along a simple path
from the origin, and it forks where a node has several peers. The invariant `Flooding` says that
of every simple path either the copy at its end has been executed, or one copy is in flight that
will get there.

So a broadcast ends, and then a node has executed it once for each simple path that leads to it
(`broadcast_floods`). That is once for all nodes exactly if the simple paths are unique
(`executed_once_iff`), and not in every network, as the documentation says.
-/

namespace AttentionBroker

open Infra SynchronousGRPC

/-- The path of a copy that its recipient does not drop. -/
def SynchronousGRPC.Delivery.path (d : Delivery) : List String :=
  d.data.visitedRecipients ++ [d.recipient]

namespace NodeNetwork

variable {μ : Type} {net : NodeNetwork μ} {origin command : String} {args : List String}
  {s s' : Traffic μ} {d : Delivery} {i : Nat} {v w : String} {P : List String}

/-! ## The invariant -/

/-- A copy of the broadcast on its way along a simple path. -/
structure Copy (net : NodeNetwork μ) (origin command : String) (args : List String)
    (d : Delivery) : Prop where
  isBroadcast : d.data.isBroadcast = true
  command : d.data.command = command
  args : d.data.args = args
  visited : ∃ u, SimplePath net.Peer origin u d.data.visitedRecipients ∧ net.Peer u d.recipient

/-- What the messages of a broadcast satisfy. For each simple path there is one copy. -/
structure Flooding (net : NodeNetwork μ) (origin command : String) (args : List String)
    (s : Traffic μ) : Prop where
  inFlight : ∀ d ∈ s.inFlight, Copy net origin command args d
  executed : ∀ e ∈ s.executed,
    SimplePath net.Peer origin e.node e.data.visitedRecipients ∧ e.node ≠ origin
  once : ∀ P v, SimplePath net.Peer origin v P → v ≠ origin →
    (s.executed.map (·.data.visitedRecipients)).count P
      + s.inFlight.countP (fun d => d.path <+: P) = 1

/-- All nodes make a message from the command. -/
def Recognised (net : NodeNetwork μ) (command : String) (args : List String) : Prop :=
  ∀ v ∈ net.nodes, ∃ message, net.messageFactory v command args = some message

theorem Copy.mem_nodes (h : Copy net origin command args d) (ho : origin ∈ net.nodes) :
    d.recipient ∈ net.nodes ∧ d.data.visitedRecipients.length ≤ net.nodes.card := by
  obtain ⟨u, hu, hr⟩ := h.visited
  have hmem : ∀ x ∈ d.data.visitedRecipients, x ∈ net.nodes :=
    hu.forall_mem (fun x y hx hxy => net.closed x hx y hxy) ho
  refine ⟨net.closed u (hmem u (List.mem_of_getLast? hu.last)) _ hr, ?_⟩
  rw [← List.toFinset_card_of_nodup hu.nodup]
  exact Finset.card_le_card fun x hx => hmem x (List.mem_toFinset.mp hx)

theorem Copy.path (h : Copy net origin command args d)
    (hv : d.recipient ∉ d.data.visitedRecipients) :
    SimplePath net.Peer origin d.recipient d.path ∧ d.recipient ≠ origin := by
  obtain ⟨u, hu, hr⟩ := h.visited
  refine ⟨hu.snoc hr hv, fun he => hv ?_⟩
  rw [he]
  exact List.mem_of_head? hu.head

/-! ## One step -/

/-- The copies that a node sends on. -/
def forwarded (net : NodeNetwork μ) (d : Delivery) : List Delivery :=
  ((net.peers d.recipient).filter fun target => target ∉ d.data.visitedRecipients).map
    fun target => { recipient := target, data := d.data.addVisitedRecipients d.recipient }

/-- **A copy is dropped, or sent on and executed.** -/
theorem step_cases (hs : Flooding net origin command args s) (ho : origin ∈ net.nodes)
    (hk : net.Recognised command args) (hd : s.inFlight[i]? = some d) :
    (d.recipient ∈ d.data.visitedRecipients ∧
      net.step s i = some { s with inFlight := s.inFlight.eraseIdx i }) ∨
    (d.recipient ∉ d.data.visitedRecipients ∧ ∃ message, net.step s i = some
      { inFlight := s.inFlight.eraseIdx i ++ net.forwarded d
        executed := s.executed ++ [{
          node := d.recipient
          message := message
          data := d.data.addVisitedRecipients d.recipient }] }) := by
  have hc := hs.inFlight d (List.mem_of_getElem? hd)
  by_cases hv : d.recipient ∈ d.data.visitedRecipients
  · refine .inl ⟨hv, ?_⟩
    simp [step, hd, inbox_visited hc.isBroadcast hv]
  · obtain ⟨message, hm⟩ := hk d.recipient (hc.mem_nodes ho).1
    rw [← hc.command, ← hc.args] at hm
    refine .inr ⟨hv, message, ?_⟩
    simp [step, hd, inbox_new hc.isBroadcast hv hm, forwarded]

/-- A copy with a repeated node is on no simple path. -/
theorem not_prefix_of_visited (hv : d.recipient ∈ d.data.visitedRecipients)
    (hP : SimplePath net.Peer origin v P) : ¬ d.path <+: P := by
  rintro ⟨rest, rfl⟩
  have hnodup := (List.nodup_append.mp hP.nodup).1
  exact (List.nodup_append.mp hnodup).2.2 _ hv _ (List.mem_singleton_self _) rfl

/-- Of the copies that a node sends on, one follows the path. -/
theorem countP_forwarded (hP : SimplePath net.Peer origin v P) :
    (net.forwarded d).countP (fun d' => d'.path <+: P)
      = if d.path <+: P ∧ d.path ≠ P then 1 else 0 := by
  rw [forwarded, List.countP_map]
  refine countP_snoc_prefix ((net.nodup _).filter _) ?_
  rintro t ⟨rest, rfl⟩
  have hsplit : SimplePath net.Peer origin v (d.path ++ t :: rest) := by
    simpa [Delivery.path] using hP
  have ht : t ∉ d.path := hsplit.notMem_of_append
  refine List.mem_filter.mpr ⟨hsplit.edge List.getLast?_concat, ?_⟩
  simpa using fun hmem => ht (List.mem_append_left _ hmem)

theorem perm_eraseIdx (hd : s.inFlight[i]? = some d) :
    s.inFlight.Perm (d :: s.inFlight.eraseIdx i) := by
  obtain ⟨hi, rfl⟩ := List.getElem?_eq_some_iff.mp hd
  exact (List.getElem_cons_eraseIdx_perm hi).symm

/-- **A step keeps one copy for each simple path.** -/
theorem Flooding.step (hs : Flooding net origin command args s) (ho : origin ∈ net.nodes)
    (hk : net.Recognised command args) (hd : s.inFlight[i]? = some d) :
    ∃ s', net.step s i = some s' ∧ Flooding net origin command args s' := by
  have hc := hs.inFlight d (List.mem_of_getElem? hd)
  have hrest : ∀ d' ∈ s.inFlight.eraseIdx i, Copy net origin command args d' := fun d' hd' =>
    hs.inFlight d' (List.mem_of_mem_eraseIdx hd')
  have hcount : ∀ P : List String, s.inFlight.countP (fun d => d.path <+: P)
      = (s.inFlight.eraseIdx i).countP (fun d => d.path <+: P)
        + if d.path <+: P then 1 else 0 := fun P => by
    rw [(perm_eraseIdx hd).countP_eq, List.countP_cons]
    simp
  rcases step_cases hs ho hk hd with ⟨hv, hrun⟩ | ⟨hv, message, hrun⟩
  · refine ⟨_, hrun, hrest, hs.executed, fun P v hP hne => ?_⟩
    have honce := hs.once P v hP hne
    rwa [hcount, if_neg (not_prefix_of_visited hv hP), Nat.add_zero] at honce
  · obtain ⟨hpath, hne⟩ := hc.path hv
    refine ⟨_, hrun, ?_, ?_, fun P v hP hvo => ?_⟩
    · refine List.forall_mem_append.mpr ⟨hrest, fun d' hd' => ?_⟩
      obtain ⟨t, ht, rfl⟩ := List.mem_map.mp hd'
      exact ⟨hc.isBroadcast, hc.command, hc.args, d.recipient, hpath, (List.mem_filter.mp ht).1⟩
    · exact List.forall_mem_append.mpr ⟨hs.executed, List.forall_mem_singleton.mpr ⟨hpath, hne⟩⟩
    · -- the copy moves from the messages in flight to the executed ones or to its successor
      have honce := hs.once P v hP hvo
      have hexecuted : List.count P [d.path] = if d.path = P then 1 else 0 := by
        rw [List.count_singleton]
        simp
      rw [hcount] at honce
      rw [List.map_append, List.count_append, List.countP_append, countP_forwarded hP]
      show _ + List.count P [d.path] + _ = 1
      have hmoved : (if d.path <+: P then 1 else 0)
          = (if d.path = P then 1 else 0) + if d.path <+: P ∧ d.path ≠ P then 1 else 0 := by
        by_cases he : d.path = P
        · simp [he]
        · simp [he]
      rw [hexecuted]
      omega

theorem flooding_start (net : NodeNetwork μ) (origin command : String) (args : List String) :
    Flooding net origin command args (net.start origin command args) := by
  refine ⟨fun d hd => ?_, nofun, fun P v hP hne => ?_⟩
  · obtain ⟨t, ht, rfl⟩ := List.mem_map.mp hd
    exact ⟨rfl, rfl, rfl, origin, .single origin, ht⟩
  · have hcount : (net.peers origin).countP (fun t => ([origin] ++ [t]) <+: P)
        = if [origin] <+: P ∧ [origin] ≠ P then 1 else 0 := by
      refine countP_snoc_prefix (net.nodup origin) ?_
      rintro t ⟨rest, rfl⟩
      have hsplit : SimplePath net.Peer origin v ([origin] ++ t :: rest) := hP
      exact hsplit.edge rfl
    -- the origin has sent one copy along the first edge of each path
    have hpre : [origin] <+: P := by
      cases P with
      | nil => exact absurd rfl hP.ne_nil
      | cons x P =>
        obtain rfl := Option.some.inj hP.head
        exact ⟨P, rfl⟩
    have hproper : [origin] ≠ P := by
      rintro rfl
      exact hne (Option.some.inj hP.last).symm
    rw [if_pos ⟨hpre, hproper⟩] at hcount
    show 0 + ((net.peers origin).map _).countP _ = 1
    rw [List.countP_map, Nat.zero_add]
    exact hcount

/-! ## A broadcast ends -/

/-- What is left to do for a copy: at most one step for each way in which its path can grow. -/
def remaining (net : NodeNetwork μ) (d : Delivery) : Nat :=
  (net.nodes.card + 1) ^ (net.nodes.card + 1 - d.data.visitedRecipients.length)

/-- What is left to do for a broadcast. -/
def work (net : NodeNetwork μ) (s : Traffic μ) : Nat := (s.inFlight.map net.remaining).sum

theorem remaining_pos (net : NodeNetwork μ) (d : Delivery) : 0 < net.remaining d :=
  Nat.pow_pos (Nat.succ_pos _)

/-- **The copies that are sent on have less work left than the one that came in.** -/
theorem sum_forwarded_lt (hc : Copy net origin command args d) (ho : origin ∈ net.nodes) :
    ((net.forwarded d).map net.remaining).sum < net.remaining d := by
  obtain ⟨hmem, hle⟩ := hc.mem_nodes ho
  obtain ⟨k, hk⟩ : ∃ k, net.nodes.card + 1 - d.data.visitedRecipients.length = k + 1 :=
    ⟨net.nodes.card - d.data.visitedRecipients.length, by omega⟩
  have hone : ∀ d' ∈ net.forwarded d, net.remaining d' = (net.nodes.card + 1) ^ k := by
    intro d' hd'
    obtain ⟨t, -, rfl⟩ := List.mem_map.mp hd'
    have hlen : (d.data.addVisitedRecipients d.recipient).visitedRecipients.length
        = d.data.visitedRecipients.length + 1 := List.length_append
    have hexp : net.nodes.card + 1 - (d.data.visitedRecipients.length + 1) = k := by omega
    rw [remaining, hlen, hexp]
  -- a node has no more peers than there are nodes
  have hlength : (net.forwarded d).length ≤ net.nodes.card := by
    have hsub : (net.peers d.recipient).toFinset ⊆ net.nodes := fun x hx =>
      net.closed _ hmem x (List.mem_toFinset.mp hx)
    calc (net.forwarded d).length ≤ (net.peers d.recipient).length := by
          rw [forwarded, List.length_map]
          exact List.length_filter_le _ _
      _ = (net.peers d.recipient).toFinset.card :=
          (List.toFinset_card_of_nodup (net.nodup _)).symm
      _ ≤ net.nodes.card := Finset.card_le_card hsub
  have hsum : ((net.forwarded d).map net.remaining).sum
      = (net.forwarded d).length * (net.nodes.card + 1) ^ k := by
    rw [List.map_congr_left hone, List.map_const', List.sum_replicate_nat]
  rw [hsum, remaining, hk, Nat.pow_succ, Nat.mul_comm]
  exact Nat.mul_lt_mul_of_pos_left (Nat.lt_succ_of_le hlength) (Nat.pow_pos (Nat.succ_pos _))

theorem work_lt (hs : Flooding net origin command args s) (ho : origin ∈ net.nodes)
    (hk : net.Recognised command args) (hstep : net.step s i = some s') :
    net.work s' < net.work s := by
  obtain ⟨d, hd, -⟩ := Option.bind_eq_some_iff.mp hstep
  have hc := hs.inFlight d (List.mem_of_getElem? hd)
  have hbefore : net.work s
      = net.remaining d + ((s.inFlight.eraseIdx i).map net.remaining).sum := by
    rw [work, ((perm_eraseIdx hd).map net.remaining).sum_eq, List.map_cons, List.sum_cons]
  rcases step_cases hs ho hk hd with ⟨-, hrun⟩ | ⟨-, message, hrun⟩
  · obtain rfl := Option.some.inj (hrun.symm.trans hstep)
    rw [hbefore]
    exact Nat.lt_add_of_pos_left (net.remaining_pos d)
  · obtain rfl := Option.some.inj (hrun.symm.trans hstep)
    have hlt := sum_forwarded_lt hc ho
    rw [hbefore, work, List.map_append, List.sum_append]
    omega

theorem flooding_step (ho : origin ∈ net.nodes) (hk : net.Recognised command args)
    (hs : Flooding net origin command args s) (hstep : net.step s i = some s') :
    Flooding net origin command args s' ∧ net.work s' < net.work s := by
  obtain ⟨d, hd, -⟩ := Option.bind_eq_some_iff.mp hstep
  obtain ⟨s₁, h₁, hs₁⟩ := hs.step ho hk hd
  obtain rfl := Option.some.inj (h₁.symm.trans hstep)
  exact ⟨hs₁, work_lt hs ho hk hstep⟩

theorem work_start (ho : origin ∈ net.nodes) : net.work (net.start origin command args)
    ≤ net.nodes.card * (net.nodes.card + 1) ^ net.nodes.card := by
  have hone : ∀ d ∈ (net.start origin command args : Traffic μ).inFlight,
      net.remaining d = (net.nodes.card + 1) ^ net.nodes.card := by
    intro d hd
    obtain ⟨t, -, rfl⟩ := List.mem_map.mp hd
    rfl
  have hlength : (net.start origin command args : Traffic μ).inFlight.length ≤ net.nodes.card := by
    have hsub : (net.peers origin).toFinset ⊆ net.nodes := fun x hx =>
      net.closed _ ho x (List.mem_toFinset.mp hx)
    rw [start, broadcast, List.length_map, ← List.toFinset_card_of_nodup (net.nodup _)]
    exact Finset.card_le_card hsub
  rw [work, List.map_congr_left hone, List.map_const', List.sum_replicate_nat]
  exact Nat.mul_le_mul_right _ hlength

/-! ## Executions -/

/-- No node executes two copies with one path. -/
theorem Flooding.nodup (hs : Flooding net origin command args s) :
    (s.executed.map (·.data.visitedRecipients)).Nodup := by
  refine List.nodup_iff_count_le_one.mpr fun P => ?_
  by_cases hP : P ∈ s.executed.map (·.data.visitedRecipients)
  · obtain ⟨e, he, rfl⟩ := List.mem_map.mp hP
    obtain ⟨hpath, hne⟩ := hs.executed e he
    have honce := hs.once _ _ hpath hne
    omega
  · rw [List.count_eq_zero_of_not_mem hP]
    exact Nat.zero_le 1

/-- The paths of the copies that a node has executed. -/
def executedPaths (s : Traffic μ) (v : String) : List (List String) :=
  (s.executed.filter (·.node = v)).map (·.data.visitedRecipients)

theorem length_executedPaths (s : Traffic μ) (v : String) :
    (executedPaths s v).length = s.executions v := by
  rw [executedPaths, List.length_map, Traffic.executions, List.countP_eq_length_filter]

theorem Flooding.executedPaths_nodup (hs : Flooding net origin command args s) (v : String) :
    (executedPaths s v).Nodup :=
  hs.nodup.sublist (List.filter_sublist.map _)

theorem Flooding.of_mem_executedPaths (hs : Flooding net origin command args s)
    (hP : P ∈ executedPaths s v) : SimplePath net.Peer origin v P ∧ v ≠ origin := by
  obtain ⟨e, he, rfl⟩ := List.mem_map.mp hP
  obtain ⟨hmem, hv⟩ := List.mem_filter.mp he
  obtain rfl := of_decide_eq_true hv
  exact hs.executed e hmem

/-- When no message is in flight, the copy of every simple path has been executed. -/
theorem Flooding.mem_executedPaths (hs : Flooding net origin command args s)
    (hempty : s.inFlight = []) (hP : SimplePath net.Peer origin v P) (hne : v ≠ origin) :
    P ∈ executedPaths s v := by
  have honce := hs.once P v hP hne
  rw [hempty, List.countP_nil, Nat.add_zero] at honce
  have hmem : P ∈ s.executed.map (·.data.visitedRecipients) :=
    List.count_pos_iff.mp (honce ▸ Nat.zero_lt_one)
  obtain ⟨e, he, rfl⟩ := List.mem_map.mp hmem
  have hv : e.node = v :=
    Option.some.inj ((hs.executed e he).1.last.symm.trans hP.last)
  exact List.mem_map.mpr ⟨e, List.mem_filter.mpr ⟨he, decide_eq_true hv⟩, rfl⟩

theorem Flooding.executions_origin (hs : Flooding net origin command args s) :
    s.executions origin = 0 := by
  rw [← length_executedPaths, List.length_eq_zero_iff, List.eq_nil_iff_forall_not_mem]
  exact fun P hP => (hs.of_mem_executedPaths hP).2 rfl

/-- **A node has executed the broadcast once for each simple path to it.** -/
theorem Flooding.executions_eq (hs : Flooding net origin command args s)
    (hempty : s.inFlight = []) (hne : v ≠ origin) :
    (s.executions v : ℕ∞) = {P | SimplePath net.Peer origin v P}.encard := by
  have hset : {P | SimplePath net.Peer origin v P} = ((executedPaths s v).toFinset : Set _) := by
    ext P
    rw [Finset.mem_coe, List.mem_toFinset]
    exact ⟨fun hP => hs.mem_executedPaths hempty hP hne, fun hP => (hs.of_mem_executedPaths hP).1⟩
  rw [hset, Set.encard_coe_eq_coe_finsetCard,
    List.toFinset_card_of_nodup (hs.executedPaths_nodup v), length_executedPaths]

/-! ## Whole runs -/

variable {schedule : List Nat}

theorem flooding_of_run (ho : origin ∈ net.nodes) (hk : net.Recognised command args)
    (hrun : run net.step (net.start origin command args) schedule = some s) :
    Flooding net origin command args s :=
  run_preserves _ (fun _ _ _ hs hstep => (flooding_step ho hk hs hstep).1) hrun
    (flooding_start net origin command args)

/-- **Some run processes all messages.** -/
theorem exists_empty (ho : origin ∈ net.nodes) (hk : net.Recognised command args) :
    ∃ schedule s, run net.step (net.start origin command args) schedule = some s ∧
      s.inFlight = [] := by
  refine exists_final (Flooding net origin command args) (fun s => s.inFlight = []) net.work
    (fun _ _ _ hs hstep => flooding_step ho hk hs hstep) (fun s hs => ?_) _
    (flooding_start net origin command args)
  cases hl : s.inFlight with
  | nil => exact .inl rfl
  | cons d l =>
    obtain ⟨s', hstep, -⟩ := hs.step ho hk (i := 0) (d := d) (by rw [hl]; rfl)
    exact .inr ⟨0, s', hstep⟩

/--
**A broadcast floods the network and stops.**

The schedule lists which of the messages in flight is processed next. The lists of visited
nodes have no duplicates, a run is finite, and any message in flight can be processed. When
none is left, the origin has not executed the command, and any other node has executed it
once for each simple path from the origin, so at least once if it can be reached.
-/
theorem broadcast_floods (ho : origin ∈ net.nodes) (hk : net.Recognised command args)
    (hrun : run net.step (net.start origin command args) schedule = some s) :
    (∀ d ∈ s.inFlight, d.data.visitedRecipients.Nodup) ∧
    schedule.length ≤ net.nodes.card * (net.nodes.card + 1) ^ net.nodes.card ∧
    (∀ i < s.inFlight.length, ∃ s', net.step s i = some s') ∧
    (s.inFlight = [] → s.executions origin = 0 ∧ ∀ v, v ≠ origin →
      (s.executions v : ℕ∞) = {P | SimplePath net.Peer origin v P}.encard ∧
      (Relation.ReflTransGen net.Peer origin v → 1 ≤ s.executions v)) := by
  have hs := flooding_of_run ho hk hrun
  refine ⟨fun d hd => ?_, ?_, fun i hi => ?_, fun hempty => ⟨hs.executions_origin, ?_⟩⟩
  · obtain ⟨u, hu, -⟩ := (hs.inFlight d hd).visited
    exact hu.nodup
  -- each step takes at least one from the work that is left
  · have hlength := run_length_le (Flooding net origin command args) net.work
      (fun _ _ _ hs hstep => flooding_step ho hk hs hstep) schedule _ s hrun
      (flooding_start net origin command args)
    have hwork : net.work (net.start origin command args : Traffic μ) ≤ _ := work_start ho
    omega
  · obtain ⟨s', hstep, -⟩ := hs.step ho hk (List.getElem?_eq_getElem hi)
    exact ⟨s', hstep⟩
  · intro v hne
    refine ⟨hs.executions_eq hempty hne, fun hreach => ?_⟩
    obtain ⟨P, hP⟩ := exists_simplePath hreach
    rw [← length_executedPaths]
    exact List.length_pos_of_mem (hs.mem_executedPaths hempty hP hne)

/-- A factory that knows one command, as in the tests. -/
def testFactory (command : String) : Option Unit := if command = "c1" then some () else none

/-- A directed ring of three nodes. Node `a` is its own peer too, and `c` has an edge back. -/
def ring : NodeNetwork Unit where
  nodes := {"a", "b", "c"}
  peers v :=
    if v = "a" then ["a", "b"] else if v = "b" then ["c"] else if v = "c" then ["a", "b"] else []
  nodup v := by split_ifs <;> decide
  closed := by decide
  messageFactory _ command _ := testFactory command

/-- The copy that `a` sent to itself is dropped after the one to `b` was processed. -/
theorem broadcast_floods_ring :
    ∃ s, run ring.step (ring.start "a" "c1" []) [1, 0, 0] = some s ∧
      (∀ d ∈ s.inFlight, d.data.visitedRecipients.Nodup) ∧
      [1, 0, 0].length ≤ ring.nodes.card * (ring.nodes.card + 1) ^ ring.nodes.card ∧
      (∀ i < s.inFlight.length, ∃ s', ring.step s i = some s') ∧
      (s.inFlight = [] → s.executions "a" = 0 ∧ ∀ v, v ≠ "a" →
        (s.executions v : ℕ∞) = {P | SimplePath ring.Peer "a" v P}.encard ∧
        (Relation.ReflTransGen ring.Peer "a" v → 1 ≤ s.executions v)) := by
  have hsome : (run ring.step (ring.start "a" "c1" []) [1, 0, 0]).isSome = true := by
    decide +kernel
  obtain ⟨s, hrun⟩ := Option.isSome_iff_exists.mp hsome
  exact ⟨s, hrun, broadcast_floods (by decide) (fun _ _ => ⟨(), rfl⟩) hrun⟩

/--
**A broadcast is never executed twice by a node exactly if simple paths from the origin are
unique.**
-/
theorem executed_once_iff (ho : origin ∈ net.nodes) (hk : net.Recognised command args) :
    (∀ schedule s, run net.step (net.start origin command args) schedule = some s →
        ∀ v, s.executions v ≤ 1) ↔
      ∀ v, {P | SimplePath net.Peer origin v P}.Subsingleton := by
  constructor
  · intro honce v
    by_cases hv : v = origin
    · subst hv
      intro P hP Q hQ
      rw [hP.eq_single, hQ.eq_single]
    · obtain ⟨schedule, s, hrun, hempty⟩ := exists_empty ho hk
      have hle := honce schedule s hrun v
      have heq := (flooding_of_run ho hk hrun).executions_eq hempty hv
      rw [← Set.encard_le_one_iff_subsingleton, ← heq]
      exact_mod_cast hle
  · intro hunique schedule s hrun v
    have hs := flooding_of_run ho hk hrun
    rw [← length_executedPaths]
    -- a list without duplicates whose elements are all the same
    cases hl : executedPaths s v with
    | nil => exact Nat.zero_le 1
    | cons P l =>
      cases l with
      | nil => exact le_rfl
      | cons Q l =>
        have hP := (hs.of_mem_executedPaths (P := P) (v := v) (by rw [hl]; simp)).1
        have hQ := (hs.of_mem_executedPaths (P := Q) (v := v) (by rw [hl]; simp)).1
        have hnodup := hs.executedPaths_nodup v
        rw [hl, hunique v hP hQ] at hnodup
        exact absurd List.mem_cons_self (List.nodup_cons.mp hnodup).1

theorem executed_once_iff_ring :
    (∀ schedule s, run ring.step (ring.start "a" "c1" []) schedule = some s →
        ∀ v, s.executions v ≤ 1) ↔
      ∀ v, {P | SimplePath ring.Peer "a" v P}.Subsingleton :=
  executed_once_iff (by decide) fun _ _ => ⟨(), rfl⟩

/-- Two ways from `a` to `d`. -/
def diamond : NodeNetwork Unit where
  nodes := {"a", "b", "c", "d"}
  peers v := if v = "a" then ["b", "c"] else if v = "b" ∨ v = "c" then ["d"] else []
  nodup v := by split_ifs <;> decide
  closed := by decide
  messageFactory _ command _ := testFactory command

/-- Node `d` gets a copy from `b` and one from `c`, and neither of them names it. -/
theorem executed_twice :
    ∃ s, run diamond.step (diamond.start "a" "c1" []) [0, 0, 0, 0] = some s ∧
      ¬ s.executions "d" ≤ 1 := by
  have hrun : (run diamond.step (diamond.start "a" "c1" []) [0, 0, 0, 0]).map
      (fun s => s.executions "d") = some 2 := by decide +kernel
  obtain ⟨s, hs, hd⟩ := Option.map_eq_some_iff.mp hrun
  exact ⟨s, hs, by rw [hd]; decide⟩

end NodeNetwork

end AttentionBroker
