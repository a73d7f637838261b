import AttentionBroker.Infra.Parties
import AttentionBroker.Hebbian.Requests

/-!
# Workers that add edges at the same time

`add_asymmetric_edge` inserts the edge under the lock of the neighbor trie and tests its count
after that, without a lock. Here each of the two is one step, and several calls take turns.

A call initialises the edge when the test finds the count to be 1. If a second call inserts
the same edge before the first one tests it, both find 2 and nobody initialises the edge.
`edges_initialised` says that this, and counters that wrap around, are all that can go wrong.
-/

namespace AttentionBroker

open Infra Finset HebbianNetwork

/-! ## Calls -/

/-- How far a call of `add_asymmetric_edge` is. -/
inductive EdgeStage where
  | ready
  | inserted (edge : Nat)
  | finished
deriving DecidableEq

/-- A call of `add_asymmetric_edge` with nodes that are not NULL. -/
structure EdgeCall where
  handle1 : Key
  handle2 : Key
  node1 : Nat
  node2 : Nat
  stage : EdgeStage

/-- A network and the calls of `add_asymmetric_edge` on it. -/
abbrev EdgeRace := Parties HebbianNetwork EdgeCall

namespace EdgeCall

/-- The next step of a call. -/
def advance (call : EdgeCall) (net : HebbianNetwork) : Except Fault (HebbianNetwork × EdgeCall) :=
  match call.stage with
  | .ready =>
    match insertEdge call.node1 call.handle2 net with
    | .ok edge net => .ok (net, { call with stage := .inserted edge })
    | .error e _ => .error e
  | .inserted edge =>
    match initEdge edge call.node1 (some call.node2) net with
    | .ok _ net => .ok (net, { call with stage := .finished })
    | .error e _ => .error e
  | .finished => .ok (net, call)

variable {net net' : HebbianNetwork} {call : EdgeCall} {edge : Nat}

theorem advance_ready (hs : call.stage = .ready)
    (hrun : insertEdge call.node1 call.handle2 net = .ok edge net') :
    call.advance net = .ok (net', { call with stage := .inserted edge }) := by
  simp only [advance, hs, hrun]

theorem advance_inserted (hs : call.stage = .inserted edge)
    (hrun : initEdge edge call.node1 (some call.node2) net = .ok () net') :
    call.advance net = .ok (net', { call with stage := .finished }) := by
  simp only [advance, hs, hrun]

/-- The two steps, one right after the other, are `add_asymmetric_edge`. -/
theorem advance_advance {net₁ net₂ : HebbianNetwork} {call₁ call₂ : EdgeCall}
    (hs : call.stage = .ready) (h₁ : call.advance net = .ok (net₁, call₁))
    (h₂ : call₁.advance net₁ = .ok (net₂, call₂)) :
    ∃ edge, addAsymmetricEdge call.handle1 call.handle2 (some call.node1) (some call.node2) net
      = .ok edge net₂ := by
  cases hins : insertEdge call.node1 call.handle2 net with
  | error e net' => simp [advance, hs, hins] at h₁
  | ok edge net' =>
    obtain ⟨rfl, rfl⟩ : net' = net₁ ∧ { call with stage := .inserted edge } = call₁ := by
      simpa [advance, hs, hins] using h₁
    cases hinit : initEdge edge call.node1 (some call.node2) net' with
    | error e net'' => simp [advance, hinit] at h₂
    | ok _ net'' =>
      obtain ⟨rfl, -⟩ : net'' = net₂ ∧ _ = call₂ := by simpa [advance, hinit] using h₂
      exact ⟨edge, (NetM.bind_ok hins).trans (NetM.bind_ok hinit)⟩

end EdgeCall

namespace EdgeRace

variable {s : EdgeRace} {net net' : HebbianNetwork} {calls calls' : List EdgeCall}
  {c c' : EdgeCall} {i j a e : Nat} {k h : Key}

/-! ## The invariant -/

/-- Call `i` has inserted the edge and not tested it. -/
def Pending (calls : List EdgeCall) (e i : Nat) : Prop :=
  ∃ c, calls[i]? = some c ∧ c.stage = .inserted e

theorem pending_set (hc : s.locals[i]? = some c) (c' : EdgeCall) :
    Pending (s.locals.set i c') e j
      ↔ if j = i then c'.stage = .inserted e else Pending s.locals e j := by
  by_cases hj : j = i
  · subst hj
    rw [if_pos rfl, Pending, Parties.get_set_self hc]
    simp
  · rw [if_neg hj, Pending, Parties.get_set_ne (Ne.symm hj)]
    exact Iff.rfl

/-- The edge has its ends, and no test of it will find 1 again. -/
def Settled (net : HebbianNetwork) (calls : List EdgeCall) (e : Nat) : Prop :=
  (net.edge e).node1 ≠ none ∧ (net.edge e).node2 ≠ none ∧
    ((net.edge e).count = 1 → ∀ i, ¬ Pending calls e i)

/-- The edge has no ends, and its own call is the only one that has to test it. -/
def Fresh (net : HebbianNetwork) (calls : List EdgeCall) (e : Nat) : Prop :=
  (net.edge e).node1 = none ∧ (net.edge e).count = 1 ∧ ∃ i, ∀ j, Pending calls e j ↔ j = i

/-- A turn that is not about the edge leaves it as it is. -/
theorem settled_or_fresh_congr (he : net'.edge e = net.edge e)
    (hp : ∀ j, Pending calls' e j ↔ Pending calls e j)
    (h : Settled net calls e ∨ Fresh net calls e) :
    Settled net' calls' e ∨ Fresh net' calls' e := by
  simpa only [Settled, Fresh, he, hp] using h

/-- The neighbors of a node whose edges have their ends. -/
def initialised (net : HebbianNetwork) (k : Key) : Finset Key :=
  (net.graph.neighbors k).filter fun h => ((net.edgeAt k h).bind Edge.node1).isSome

theorem mem_initialised (wf : net.Wf) :
    h ∈ initialised net k ↔ ∃ e, net.edgeRef k h = some e ∧ (net.edge e).node1 ≠ none := by
  rw [initialised, mem_filter, wf.mem_neighbors]
  constructor
  · rintro ⟨⟨e, he⟩, hsome⟩
    rw [edgeAt_of_ref he, Option.bind_some] at hsome
    exact ⟨e, he, Option.isSome_iff_ne_none.mp hsome⟩
  · rintro ⟨e, he, hne⟩
    rw [edgeAt_of_ref he, Option.bind_some]
    exact ⟨⟨e, he⟩, Option.isSome_iff_ne_none.mpr hne⟩

theorem initialised_eq_neighbors (wf : net.Wf)
    (hends : ∀ h e, net.edgeRef k h = some e → (net.edge e).node1 ≠ none) :
    initialised net k = net.graph.neighbors k := by
  refine filter_true_of_mem fun h hh => ?_
  obtain ⟨e, he⟩ := wf.mem_neighbors.mp hh
  rw [edgeAt_of_ref he]
  exact Option.isSome_iff_ne_none.mpr (hends h e he)

/-- What every turn keeps. The arity of a node counts its initialised edges. -/
structure Guarded (s : EdgeRace) : Prop where
  wf : s.shared.Wf
  calls : ∀ c ∈ s.locals, (∃ k, s.shared.nodeRef k = some c.node1) ∧ IsHandle c.handle2
  pending : ∀ c ∈ s.locals, ∀ e, c.stage = .inserted e →
    ∃ k h, s.shared.nodeRef k = some c.node1 ∧ s.shared.edgeRef k h = some e
  edges : ∀ k h e, s.shared.edgeRef k h = some e →
    Settled s.shared s.locals e ∨ Fresh s.shared s.locals e
  arity : ∀ k a, s.shared.nodeRef k = some a →
    (s.shared.node a).arity.toNat = (initialised s.shared k).card
  bounded : ∀ k, (s.shared.graph.neighbors k).card < 2 ^ 32

/--
The insertion of a call does not get in the way of another one.

An edge that is there has its ends and a count that has not come back to 0, and a new one
does not overflow the arity.
-/
def Alone (net : HebbianNetwork) (c : EdgeCall) : Prop :=
  (∀ e ∈ (net.node c.node1).neighbors.find c.handle2,
    (net.edge e).node1 ≠ none ∧ (net.edge e).count ≠ 0) ∧
  ((net.node c.node1).neighbors.find c.handle2 = none →
    (net.node c.node1).neighbors.keySet.card + 1 < 2 ^ 32)

instance (net : HebbianNetwork) (c : EdgeCall) : Decidable (Alone net c) :=
  inferInstanceAs (Decidable ((∀ e ∈ (net.node c.node1).neighbors.find c.handle2, _ ∧ _) ∧ _))

/-! ## The first step -/

section insert

variable {k' h' : Key} {e' : Nat}

/-- A new edge has no ends yet, so the same edges are initialised. -/
theorem initialised_insert (wf : net.Wf) (wf' : net'.Wf) (hi : InsertedEdge net k h e net')
    (k' : Key) : initialised net' k' = initialised net k' := by
  ext h'
  rw [mem_initialised wf, mem_initialised wf']
  constructor
  · rintro ⟨e', he', hne⟩
    rcases hi.edge_cases wf' he' with ⟨-, hr, hedge⟩ | ⟨rfl, hr, hedge⟩ | ⟨rfl, -, hedge⟩
    · exact ⟨e', hr, by rwa [hedge] at hne⟩
    · exact ⟨e', hr, by rwa [hedge] at hne⟩
    · rw [hedge] at hne
      exact absurd rfl hne
  · rintro ⟨e', he', hne⟩
    refine ⟨e', hi.edgeRef_of_some he', ?_⟩
    rcases hi.edge_cases wf' (hi.edgeRef_of_some he') with
      ⟨-, -, hedge⟩ | ⟨rfl, -, hedge⟩ | ⟨rfl, hr, -⟩
    · rwa [hedge]
    · rwa [hedge]
    · rw [hr] at he'
      cases he'

theorem card_neighbors_insert (wf : net.Wf) (wf' : net'.Wf) (hi : InsertedEdge net k h e net')
    (hb : ∀ k', (net.graph.neighbors k').card < 2 ^ 32)
    (hnew : net.edgeRef k h = none → (net.graph.neighbors k).card + 1 < 2 ^ 32) (k' : Key) :
    (net'.graph.neighbors k').card < 2 ^ 32 := by
  have hn : net'.graph.neighbors
      = Function.update net.graph.neighbors k (Insert.insert h (net.graph.neighbors k)) := by
    rw [hi.graph wf wf']
    rfl
  rw [hn]
  by_cases hk : k' = k
  · subst hk
    rw [Function.update_self]
    cases hr : net.edgeRef k' h with
    | some e₀ =>
      rw [insert_eq_of_mem (wf.mem_neighbors.mpr ⟨e₀, hr⟩)]
      exact hb k'
    | none => exact (card_insert_le h _).trans_lt (hnew hr)
  · rw [Function.update_of_ne hk]
    exact hb k'

/-- A call that inserts is pending at its edge, and nothing else changes. -/
theorem pending_insert (hc : s.locals[i]? = some c) (hs : c.stage = .ready) (e e' j : Nat) :
    Pending (s.locals.set i { c with stage := .inserted e }) e' j
      ↔ (j = i ∧ e' = e) ∨ Pending s.locals e' j := by
  have hno : ¬ Pending s.locals e' i := by
    rintro ⟨c₁, hc₁, hs₁⟩
    rw [hc, Option.some.injEq] at hc₁
    rw [← hc₁, hs] at hs₁
    cases hs₁
  rw [pending_set hc]
  by_cases hj : j = i
  · subst hj
    simp [hno, eq_comm]
  · simp [hj]

/-- **An insertion that gets in nobody's way keeps the invariant.** -/
theorem Guarded.insert (g : Guarded s) (hc : s.locals[i]? = some c) (hs : c.stage = .ready)
    (hu : Alone s.shared c) : ∃ s', s.turn EdgeCall.advance i = .ok s' ∧ Guarded s' := by
  obtain ⟨⟨k, ha⟩, hh⟩ := g.calls c (Parties.mem_of_get hc)
  obtain ⟨e, net', hrun, wf', hi⟩ := insertEdge_spec g.wf ha hh
  have hfind : (s.shared.node c.node1).neighbors.find c.handle2
      = s.shared.edgeRef k c.handle2 := (edgeRef_of_ref ha _).symm
  have hn : s.shared.graph.neighbors k = (s.shared.node c.node1).neighbors.keySet :=
    nodeField_of_ref ha
  have hpending := pending_insert hc hs e
  refine ⟨_, Parties.turn_ok hc (EdgeCall.advance_ready hs hrun), wf', ?_, ?_, ?_, ?_, ?_⟩
  · have hcalls : ∀ x ∈ s.locals, (∃ k, net'.nodeRef k = some x.node1) ∧ IsHandle x.handle2 := by
      rw [hi.nodeRef]
      exact g.calls
    exact Parties.forall_set hcalls (hcalls c (Parties.mem_of_get hc))
  · refine Parties.forall_set (fun x hx e' he' => ?_) fun e' he' => ?_
    · obtain ⟨k', h', ha', hr⟩ := g.pending x hx e' he'
      exact ⟨k', h', (congrFun hi.nodeRef k').trans ha', hi.edgeRef_of_some hr⟩
    · cases he'
      exact ⟨k, c.handle2, (congrFun hi.nodeRef k).trans ha, hi.bound⟩
  · intro k' h' e' he'
    rcases hi.edge_cases wf' he' with ⟨hee, hr, hedge⟩ | ⟨rfl, hr, hedge⟩ | ⟨rfl, hr, hedge⟩
    · refine settled_or_fresh_congr hedge (fun j => ?_) (g.edges k' h' e' hr)
      simp [hpending, hee]
    · -- the edge was there, so its count does not come back to 1
      obtain ⟨rfl, rfl⟩ := wf'.edge_inj _ _ _ _ _ he' hi.bound
      obtain ⟨hne, hcount⟩ := hu.1 e' (hfind.trans hr)
      rcases g.edges k' c.handle2 e' hr with ⟨-, h2, -⟩ | ⟨h1, -⟩
      · refine .inl ⟨by rw [hedge]; exact hne, by rw [hedge]; exact h2, fun h1 => ?_⟩
        rw [hedge] at h1
        have hsucc : (s.shared.edge e').count + 1 = 0 + 1 := h1
        exact absurd ((UInt32.add_left_inj 1).mp hsucc) hcount
      · exact absurd h1 hne
    · -- the edge is new, so nobody else can be about to test it
      refine .inr ⟨by rw [hedge]; rfl, by rw [hedge]; rfl, i, fun j => ?_⟩
      have hno : ¬ Pending s.locals e' j := by
        rintro ⟨c₁, hc₁, hs₁⟩
        obtain ⟨k₁, h₁, -, hr₁⟩ := g.pending c₁ (Parties.mem_of_get hc₁) e' hs₁
        obtain ⟨rfl, rfl⟩ := wf'.edge_inj _ _ _ _ _ (hi.edgeRef_of_some hr₁) he'
        rw [hr] at hr₁
        cases hr₁
      simp [hpending, hno]
  · intro k' a ha'
    rw [(hi.fields a).2.1, initialised_insert g.wf wf' hi]
    exact g.arity k' a ((congrFun hi.nodeRef k').symm.trans ha')
  · exact card_neighbors_insert g.wf wf' hi g.bounded
      fun hr => by rw [hn]; exact hu.2 (hfind.trans hr)

end insert

/-! ## The second step -/

section test

/-- A call that has tested its edge is not pending any more, and nothing else changes. -/
theorem pending_finish (hc : s.locals[i]? = some c) (e j : Nat) :
    Pending (s.locals.set i { c with stage := .finished }) e j
      ↔ j ≠ i ∧ Pending s.locals e j := by
  rw [pending_set hc]
  by_cases hj : j = i
  · simp [hj]
  · simp [hj]

theorem pending_finish_ne {e' : Nat} (hc : s.locals[i]? = some c) (hs : c.stage = .inserted e)
    (hee : e' ≠ e) (j : Nat) :
    Pending (s.locals.set i { c with stage := .finished }) e' j ↔ Pending s.locals e' j := by
  rw [pending_finish hc]
  refine ⟨fun hp => hp.2, fun hp => ⟨?_, hp⟩⟩
  rintro rfl
  obtain ⟨c₁, hc₁, hs₁⟩ := hp
  rw [hc, Option.some.injEq] at hc₁
  rw [← hc₁, hs] at hs₁
  exact hee (EdgeStage.inserted.inj hs₁).symm

/-- One more edge has its ends. -/
theorem initialised_init (wf : net.Wf) (wf' : net'.Wf) (he : net.edgeRef k h = some e)
    {node2 : Option Nat} (hi : InitialisedEdge net k a e node2 net') (k' : Key) :
    initialised net' k'
      = if k' = k then Insert.insert h (initialised net k) else initialised net k' := by
  have hmem : ∀ h', h' ∈ initialised net' k'
      ↔ (k' = k ∧ h' = h) ∨ h' ∈ initialised net k' := by
    intro h'
    rw [mem_initialised wf, mem_initialised wf', hi.edgeRef]
    constructor
    · rintro ⟨e', he', hne⟩
      by_cases hee : e' = e
      · subst hee
        exact .inl (wf.edge_inj _ _ _ _ _ he' he)
      · rw [hi.edge, if_neg hee] at hne
        exact .inr ⟨e', he', hne⟩
    · rintro (⟨rfl, rfl⟩ | ⟨e', he', hne⟩)
      · exact ⟨e, he, by rw [hi.edge, if_pos rfl]; simp⟩
      · refine ⟨e', he', ?_⟩
        rw [hi.edge]
        split
        · simp
        · exact hne
  ext h'
  rw [hmem]
  by_cases hk : k' = k
  · subst hk
    simp
  · simp [hk]

/-- The arity of its first node counts the edge that got its ends. -/
theorem Guarded.arity_init (g : Guarded s) (wf' : net'.Wf) {node2 : Option Nat}
    (he : s.shared.edgeRef k h = some e) (hnone : (s.shared.edge e).node1 = none)
    (hi : InitialisedEdge s.shared k a e node2 net') {k' : Key} {a' : Nat}
    (ha' : net'.nodeRef k' = some a') :
    (net'.node a').arity.toNat = (initialised net' k').card := by
  have ha₀ : s.shared.nodeRef k' = some a' := (congrFun hi.nodeRef k').symm.trans ha'
  have hnode := hi.nodeAt k'
  rw [nodeAt_of_ref ha'] at hnode
  rw [initialised_init g.wf wf' he hi]
  by_cases hk : k' = k
  · subst hk
    rw [if_pos rfl, nodeAt_of_ref ha₀, Option.map_some, Option.some.injEq] at hnode
    have hnew : h ∉ initialised s.shared k' := by
      rw [mem_initialised g.wf]
      rintro ⟨e', he', hne⟩
      obtain rfl : e = e' := Option.some.inj (he.symm.trans he')
      exact hne hnone
    -- the edge is one of the neighbors and was not counted, so the arity has room for it
    have hsub : Insert.insert h (initialised s.shared k') ⊆ s.shared.graph.neighbors k' :=
      insert_subset (g.wf.mem_neighbors.mpr ⟨e, he⟩) (filter_subset _ _)
    have hlt := (card_le_card hsub).trans_lt (g.bounded k')
    have harity := g.arity k' a' ha₀
    rw [card_insert_of_notMem hnew] at hlt
    rw [if_pos rfl, card_insert_of_notMem hnew, ← harity, hnode]
    show ((s.shared.node a').arity + 1).toNat = _
    rw [UInt32.toNat_add]
    exact Nat.mod_eq_of_lt (by rw [harity]; exact hlt)
  · rw [if_neg hk, nodeAt_of_ref ha₀, Option.some.injEq] at hnode
    rw [if_neg hk, hnode]
    exact g.arity k' a' ha₀

/-- **A test that finds 1 gives the edge its ends and counts it.** -/
theorem Guarded.init (g : Guarded s) (hc : s.locals[i]? = some c) (hs : c.stage = .inserted e)
    (h1 : (s.shared.edge e).count = 1) :
    ∃ s', s.turn EdgeCall.advance i = .ok s' ∧ Guarded s' := by
  obtain ⟨k, h, ha, he⟩ := g.pending c (Parties.mem_of_get hc) e hs
  -- the edge is not settled, because this call is still to test it and finds 1
  obtain ⟨hnone, i₀, huniq⟩ : (s.shared.edge e).node1 = none ∧
      ∃ i₀, ∀ j, Pending s.locals e j ↔ j = i₀ := by
    rcases g.edges k h e he with ⟨-, -, hno⟩ | ⟨hnone, -, huniq⟩
    · exact absurd ⟨c, hc, hs⟩ (hno h1 i)
    · exact ⟨hnone, huniq⟩
  obtain rfl : i = i₀ := (huniq i).mp ⟨c, hc, hs⟩
  obtain ⟨net', hrun, wf', hi⟩ := initEdge_spec g.wf ha (some c.node2) h1
  refine ⟨_, Parties.turn_ok hc (EdgeCall.advance_inserted hs hrun), wf', ?_, ?_, ?_,
    fun k' a' ha' => g.arity_init wf' he hnone hi ha', ?_⟩
  · have hcalls : ∀ x ∈ s.locals, (∃ k, net'.nodeRef k = some x.node1) ∧ IsHandle x.handle2 := by
      rw [hi.nodeRef]
      exact g.calls
    exact Parties.forall_set hcalls (hcalls c (Parties.mem_of_get hc))
  · refine Parties.forall_set (fun x hx e' he' => ?_) fun e' he' => by cases he'
    rw [hi.nodeRef, hi.edgeRef]
    exact g.pending x hx e' he'
  · intro k' h' e' he'
    rw [hi.edgeRef] at he'
    by_cases hee : e' = e
    · subst hee
      refine .inl ⟨by simp [hi.edge], by simp [hi.edge], fun _ j hj => ?_⟩
      obtain ⟨hne, hj'⟩ := (pending_finish hc e' j).mp hj
      exact hne ((huniq j).mp hj')
    · exact settled_or_fresh_congr (by rw [hi.edge, if_neg hee]) (pending_finish_ne hc hs hee)
        (g.edges k' h' e' he')
  · intro k'
    have hn : net'.graph.neighbors k' = s.shared.graph.neighbors k' := by
      ext h'
      rw [wf'.mem_neighbors, g.wf.mem_neighbors, hi.edgeRef]
    show (net'.graph.neighbors k').card < 2 ^ 32
    rw [hn]
    exact g.bounded k'

/-- A test that finds another count changes nothing, and the edge is settled. -/
theorem Guarded.skip (g : Guarded s) (hc : s.locals[i]? = some c) (hs : c.stage = .inserted e)
    (h1 : (s.shared.edge e).count ≠ 1) :
    ∃ s', s.turn EdgeCall.advance i = .ok s' ∧ Guarded s' := by
  refine ⟨_, Parties.turn_ok hc (EdgeCall.advance_inserted hs (initEdge_skip h1)), g.wf, ?_, ?_, ?_,
    g.arity, g.bounded⟩
  · exact Parties.forall_set g.calls (g.calls c (Parties.mem_of_get hc))
  · exact Parties.forall_set g.pending fun e' he' => by cases he'
  · intro k' h' e' he'
    by_cases hee : e' = e
    · subst hee
      rcases g.edges k' h' e' he' with ⟨hn1, hn2, -⟩ | ⟨-, hcount, -⟩
      · exact .inl ⟨hn1, hn2, fun hcount => absurd hcount h1⟩
      · exact absurd hcount h1
    · exact settled_or_fresh_congr rfl (pending_finish_ne hc hs hee) (g.edges k' h' e' he')

end test

/-! ## All calls -/

/-- No call of the schedule gets in the way of another one in its next turn. -/
def Undisturbed (s : EdgeRace) (i : Nat) : Prop :=
  ∀ c ∈ s.locals[i]?, c.stage = .ready → Alone s.shared c

instance (s : EdgeRace) (i : Nat) : Decidable (Undisturbed s i) :=
  inferInstanceAs (Decidable (∀ c ∈ s.locals[i]?, _ → _))

/-- **Each turn is possible and keeps the invariant.** -/
theorem Guarded.turn (g : Guarded s) (hu : Undisturbed s i) :
    ∃ s', s.turn EdgeCall.advance i = .ok s' ∧ Guarded s' := by
  cases hc : s.locals[i]? with
  | none => exact ⟨s, Parties.turn_none hc, g⟩
  | some c =>
    cases hs : c.stage with
    | ready => exact g.insert hc hs (hu c hc hs)
    | inserted e =>
      by_cases h1 : (s.shared.edge e).count = 1
      · exact g.init hc hs h1
      · exact g.skip hc hs h1
    | finished =>
      have hrun : c.advance s.shared = .ok (s.shared, c) := by simp only [EdgeCall.advance, hs]
      obtain ⟨hi, hget⟩ := List.getElem?_eq_some_iff.mp hc
      have hset : s.locals.set i c = s.locals := by rw [← hget, List.set_getElem_self]
      refine ⟨s, ?_, g⟩
      rw [Parties.turn_ok hc hrun, hset]

/-- All calls have returned. -/
def Finished (s : EdgeRace) : Prop := ∀ c ∈ s.locals, c.stage = .finished

instance (s : EdgeRace) : Decidable (Finished s) :=
  inferInstanceAs (Decidable (∀ c ∈ s.locals, _ = _))

/-- Every edge has its ends, and every arity is the number of edges. -/
structure Initialised (net : HebbianNetwork) : Prop where
  node1 : ∀ k h e, net.edgeRef k h = some e → (net.edge e).node1 ≠ none
  node2 : ∀ k h e, net.edgeRef k h = some e → (net.edge e).node2 ≠ none
  arity : ∀ k a, net.nodeRef k = some a →
    (net.node a).arity.toNat = (net.node a).neighbors.keySet.card

/-- When all calls have returned, no edge is waiting for its ends. -/
theorem Guarded.initialised (g : Guarded s) (hf : Finished s) : Initialised s.shared := by
  have hsettled : ∀ k h e, s.shared.edgeRef k h = some e → Settled s.shared s.locals e := by
    intro k h e he
    rcases g.edges k h e he with hs | ⟨-, -, i, huniq⟩
    · exact hs
    · obtain ⟨c, hc, hs⟩ := (huniq i).mpr rfl
      rw [hf c (Parties.mem_of_get hc)] at hs
      cases hs
  refine ⟨fun k h e he => (hsettled k h e he).1, fun k h e he => (hsettled k h e he).2.1,
    fun k a ha => ?_⟩
  have hn : s.shared.graph.neighbors k = (s.shared.node a).neighbors.keySet := nodeField_of_ref ha
  rw [g.arity k a ha, initialised_eq_neighbors g.wf fun h e he => (hsettled k h e he).1, hn]

theorem guarded_start (hn : net.Reachable)
    (harity : ∀ k a, net.nodeRef k = some a →
      (net.node a).arity.toNat = (net.node a).neighbors.keySet.card)
    (hcalls : ∀ c ∈ calls, c.stage = .ready ∧ (∃ k, net.nodeRef k = some c.node1) ∧
      IsHandle c.handle2) : Guarded { shared := net, locals := calls } := by
  have s := hn.sound
  have hends : ∀ k h e, net.edgeRef k h = some e →
      (net.edge e).node1 ≠ none ∧ (net.edge e).node2 ≠ none := by
    intro k h e he
    obtain ⟨a, ha⟩ := nodeRef_of_edgeRef he
    obtain ⟨b, hb⟩ := s.ends.stored k h e he
    rw [s.ends.node1 k h e he, s.ends.node2 k h e he, ha, hb]
    simp
  have hcard : ∀ k a, net.nodeRef k = some a →
      net.graph.neighbors k = (net.node a).neighbors.keySet := fun k a ha => nodeField_of_ref ha
  refine ⟨s.wf, fun c hc => (hcalls c hc).2, fun c hc e he => ?_, fun k h e he => ?_,
    fun k a ha => ?_, fun k => ?_⟩
  · rw [(hcalls c hc).1] at he
    cases he
  · refine .inl ⟨(hends k h e he).1, (hends k h e he).2, fun _ i => ?_⟩
    rintro ⟨c, hc, hs⟩
    rw [(hcalls c (List.mem_of_getElem? hc)).1] at hs
    cases hs
  · show (net.node a).arity.toNat = (EdgeRace.initialised net k).card
    rw [initialised_eq_neighbors s.wf fun h e he => (hends k h e he).1, harity k a ha, hcard k a ha]
  · show (net.graph.neighbors k).card < 2 ^ 32
    cases ha : net.nodeRef k with
    | none =>
      have hempty : net.graph.neighbors k = ∅ := nodeField_none ha
      rw [hempty]
      exact Nat.two_pow_pos 32
    | some a =>
      rw [hcard k a ha, ← harity k a ha]
      exact UInt32.toNat_lt _

/--
**Every edge gets its ends**, in every interleaving in which no insertion gets in the way of
another call, on a network whose arities are right.
-/
theorem edges_initialised {schedule : List Nat} (hn : net.Reachable)
    (harity : ∀ k a, net.nodeRef k = some a →
      (net.node a).arity.toNat = (net.node a).neighbors.keySet.card)
    (hcalls : ∀ c ∈ calls, c.stage = .ready ∧ (∃ k, net.nodeRef k = some c.node1) ∧
      IsHandle c.handle2)
    (hu : AllSteps (Parties.step EdgeCall.advance) Undisturbed
      { shared := net, locals := calls } schedule) :
    ∃ s, run (Parties.step EdgeCall.advance) { shared := net, locals := calls } schedule = some s ∧
      (Finished s → Initialised s.shared) := by
  obtain ⟨s, hrun, g⟩ := run_total Guarded (fun s i g hu => by
    obtain ⟨s', hturn, g'⟩ := g.turn hu
    exact ⟨s', Parties.step_of_turn hturn, g'⟩) schedule _ hu (guarded_start hn harity hcalls)
  exact ⟨s, hrun, g.initialised⟩

/-- The network after `a` and `b`, where a letter stands for the handle made of it. -/
def strangers : HebbianNetwork :=
  afterRequests [.correlation [handleOf 97], .correlation [handleOf 98]]

/-- A call for the edge from `a` to `b` of that network. -/
def edgeOfStrangers : EdgeCall where
  handle1 := handleOf 97
  handle2 := handleOf 98
  node1 := 0
  node2 := 1
  stage := .ready

theorem strangers_reachable : strangers.Reachable :=
  reachable_afterRequests fun r hr => by
    simp only [List.mem_cons, List.not_mem_nil, or_false] at hr
    rcases hr with rfl | rfl
    · exact (by decide +kernel : ∀ k ∈ [handleOf 97], IsHandle k)
    · exact (by decide +kernel : ∀ k ∈ [handleOf 98], IsHandle k)

theorem strangers_arity (k : Key) (a : Nat) (ha : strangers.nodeRef k = some a) :
    (strangers.node a).arity.toNat = (strangers.node a).neighbors.keySet.card := by
  have h : ∀ k ∈ strangers.graph.nodes,
      (strangers.graph.arity k).toNat = (strangers.graph.neighbors k).card := by decide +kernel
  have hk := h k (strangers_reachable.sound.wf.mem_nodes.mpr ⟨a, ha⟩)
  have hn : strangers.graph.neighbors k = (strangers.node a).neighbors.keySet :=
    nodeField_of_ref ha
  rwa [graph_arity ha, hn] at hk

theorem edgeOfStrangers_valid (c : EdgeCall) (hc : c ∈ [edgeOfStrangers, edgeOfStrangers]) :
    c.stage = .ready ∧ (∃ k, strangers.nodeRef k = some c.node1) ∧ IsHandle c.handle2 := by
  obtain rfl : c = edgeOfStrangers := by simpa using hc
  exact ⟨rfl, ⟨handleOf 97, by decide +kernel⟩, by decide +kernel⟩

/-- Two calls for one edge, the second after the first one has tested it. -/
theorem edges_initialised_in_turn :
    ∃ s, run (Parties.step EdgeCall.advance)
        { shared := strangers, locals := [edgeOfStrangers, edgeOfStrangers] } [0, 0, 1, 1]
          = some s ∧
      (Finished s → Initialised s.shared) :=
  edges_initialised strangers_reachable strangers_arity edgeOfStrangers_valid (by decide +kernel)

/-- Two calls for one edge that both insert it before one of them tests it. -/
theorem edge_never_initialised :
    strangers.Reachable ∧
    (∀ c ∈ [edgeOfStrangers, edgeOfStrangers], c.stage = .ready ∧
      (∃ k, strangers.nodeRef k = some c.node1) ∧ IsHandle c.handle2) ∧
    ∃ s, run (Parties.step EdgeCall.advance)
        { shared := strangers, locals := [edgeOfStrangers, edgeOfStrangers] } [0, 1, 0, 1]
          = some s ∧
      Finished s ∧ ¬ Initialised s.shared := by
  have h : (run (Parties.step EdgeCall.advance)
      { shared := strangers, locals := [edgeOfStrangers, edgeOfStrangers] } [0, 1, 0, 1]).map
        (fun s => (decide (Finished s),
          (s.shared.edgeRef (handleOf 97) (handleOf 98)).map fun e => (s.shared.edge e).node1))
      = some (true, some none) := by decide +kernel
  obtain ⟨s, hrun, hs⟩ := Option.map_eq_some_iff.mp h
  obtain ⟨hf, he⟩ := Prod.mk.injEq _ _ _ _ ▸ hs
  obtain ⟨e, he, hnone⟩ := Option.map_eq_some_iff.mp he
  exact ⟨strangers_reachable, edgeOfStrangers_valid, s, hrun, of_decide_eq_true hf,
    fun hi => hi.node1 _ _ e he hnone⟩

end EdgeRace

end AttentionBroker
