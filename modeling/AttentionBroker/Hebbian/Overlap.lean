import AttentionBroker.Infra.Parties
import AttentionBroker.Hebbian.Conservation

/-!
# Calls that overlap

The workers run stimuli and correlations on one network at the same time. A traversal keeps
the root locked, so each phase of `spread_stimuli` is one step, and so is a complete
correlation. An `Overlap` is a network with the calls of `spread_stimuli` that are under way.

The documentation promises a fixed amount of tokens here as well. `stimuli_to_spread` is a
field of the node, so a second call can overwrite what the first has set aside but not spread.
`overlap_total_fixed` is the promise for the interleavings in which that does not happen.
-/

namespace AttentionBroker

open Infra Finset TokenSpreader HebbianNetwork

/-! ## Phases -/

/-- A network and the calls of `spread_stimuli` on it. -/
abbrev Overlap := Parties HebbianNetwork (HandleCount × Stage)

namespace Overlap

/-- The next phase of a call. -/
def phase (call : HandleCount × Stage) (net : HebbianNetwork) :
    Except Fault (HebbianNetwork × HandleCount × Stage) :=
  match call.2.advance call.1 net with
  | .ok stage net => .ok (net, call.1, stage)
  | .error e _ => .error e

/-- The calls of some requests, before their first phase. -/
def start (net : HebbianNetwork) (requests : List HandleCount) : Overlap where
  shared := net
  locals := requests.map fun request => (request, .ready)

/-- The call has returned. -/
def Returned : Stage → Prop
  | .finished => True
  | _ => False

instance : DecidablePred Returned
  | .finished => isTrue trivial
  | .ready | .rentCollected _ | .wagesDistributed _ | .consolidated _ => isFalse id

/-- All calls have returned. -/
def Finished (s : Overlap) : Prop := ∀ c ∈ s.locals, Returned c.2

instance (s : Overlap) : Decidable (Finished s) :=
  inferInstanceAs (Decidable (∀ c ∈ s.locals, Returned c.2))

/-! ## What a phase does -/

section phase

variable {net net' : HebbianNetwork} {q : HandleCount} {stage stage' : Stage} {data : StimuliData}

theorem phase_ok (h : stage.advance q net = .ok stage' net') :
    phase (q, stage) net = .ok (net', q, stage') := by
  simp only [phase, h]

theorem phase_ready (s : net.Sound) (q : HandleCount) :
    ∃ data, phase (q, .ready) net = .ok (net, q, .rentCollected data) ∧ data.Wf ∧
      data.ledger = net.graph.collectRent rates := by
  obtain ⟨data, hrun, wf, hledger⟩ := collectRentPhase_simulates s
  exact ⟨data, phase_ok (NetM.bind_ok hrun), wf, hledger⟩

theorem phase_rentCollected (s : net.Sound) (wf : data.Wf) (hq : q.Valid) :
    ∃ data' net', phase (q, .rentCollected data) net = .ok (net', q, .wagesDistributed data') ∧
      data'.Wf ∧ net'.Sound ∧ net'.graph = net.graph.alienateTokens ∧
      data'.ledger = net.graph.distributeWages q.named q.boost data.ledger := by
  obtain ⟨data', net', hrun, wf', s', -, hg, hledger⟩ := distributeWagesPhase_simulates s wf hq
  exact ⟨data', net', phase_ok (NetM.bind_ok hrun), wf', s', hg, hledger⟩

/-- **Consolidation finds every node in the private trie, or reads through NULL.** -/
theorem phase_wagesDistributed (s : net.Sound) (wf : data.Wf) :
    (net.graph.nodes ⊆ data.ledger.keys ∧
      ∃ net', phase (q, .wagesDistributed data) net = .ok (net', q, .consolidated data) ∧
        net'.Sound ∧ net'.graph = net.graph.consolidate rates data.ledger) ∨
    (¬ net.graph.nodes ⊆ data.ledger.keys ∧
      phase (q, .wagesDistributed data) net = .error .nullPointer) := by
  rcases consolidatePhase_simulates s wf with ⟨hsub, net', hrun, m, hg⟩ | ⟨hsub, hrun⟩
  · exact .inl ⟨hsub, net', phase_ok (NetM.bind_ok hrun), m.sound, hg⟩
  · refine .inr ⟨hsub, ?_⟩
    have hadvance : Stage.advance q (.wagesDistributed data) net = .error .nullPointer net :=
      NetM.bind_error hrun
    simp only [phase, hadvance]

theorem phase_consolidated (s : net.Sound) (q : HandleCount) (data : StimuliData) :
    ∃ net', phase (q, .consolidated data) net = .ok (net', q, .finished) ∧ net'.Sound ∧
      net'.graph = net.graph.spread := by
  obtain ⟨data', net', hrun, m, hg⟩ := spreadPhase_simulates s data
  exact ⟨net', phase_ok (NetM.bind_ok (NetM.discard_ok hrun)), m.sound, hg⟩

end phase

/-! ## Accounting -/

variable {V : Finset Key} {s s' : Overlap} {i : Nat} {net net' : HebbianNetwork}
  {q : HandleCount} {stage stage' : Stage}

/-- What a call has promised to the nodes and not yet paid. -/
def inFlight (V : Finset Key) : Stage → ℚ
  | .wagesDistributed data => ∑ k ∈ V, (data.ledger.wages k - data.ledger.rent k)
  | _ => 0

/-- All tokens: of the network, set aside by nodes and promised by calls. -/
def account (V : Finset Key) (s : Overlap) : ℚ :=
  s.shared.graph.total + s.shared.graph.setAside + (s.locals.map fun c => inFlight V c.2).sum

/-- What the private data of a call are good for. -/
def Noted (V : Finset Key) : Stage → Prop
  | .rentCollected data => data.Wf ∧ V ⊆ data.ledger.keys ∧ (∀ k, data.ledger.wages k = 0) ∧
      data.totalRent = ∑ k ∈ V, data.ledger.rent k
  | .wagesDistributed data => data.Wf ∧ V ⊆ data.ledger.keys
  | _ => True

/-- The call at `j` has consolidated and not yet spread. -/
def SpreadsNext (calls : List (HandleCount × Stage)) (j : Nat) : Prop :=
  ∃ q data, calls[j]? = some (q, .consolidated data)

/-- What the phases of stimuli keep on a network with the nodes `V`. -/
structure Kept (V : Finset Key) (s : Overlap) : Prop where
  sound : s.shared.Sound
  nodes : s.shared.graph.nodes = V
  requests : ∀ c ∈ s.locals, c.1.Balanced ∧ c.1.named ⊆ V
  noted : ∀ c ∈ s.locals, Noted V c.2
  pending : (∀ k ∈ V, s.shared.graph.stimuli k = 0) ∨ ∃ j, SpreadsNext s.locals j

/--
No tokens are lost in the phase after this stage.

Nothing is set aside when the call consolidates, and what is set aside has an edge to leave
over when it spreads.
-/
def LosslessAt (g : Graph Key) : Stage → Prop
  | .wagesDistributed _ => g.setAside = 0
  | .consolidated _ => ∀ k ∈ g.nodes, g.stimuli k ≠ 0 → g.Weighted k
  | _ => True

instance (g : Graph Key) : DecidablePred (LosslessAt g)
  | .wagesDistributed _ => inferInstanceAs (Decidable (_ = _))
  | .consolidated _ => inferInstanceAs (Decidable (∀ k ∈ g.nodes, _ → _ ∧ _))
  | .ready | .rentCollected _ | .finished => isTrue trivial

/-- No tokens are lost in the next turn of a call. -/
def Lossless (s : Overlap) (i : Nat) : Prop := ∀ c ∈ s.locals[i]?, LosslessAt s.shared.graph c.2

instance (s : Overlap) (i : Nat) : Decidable (Lossless s i) :=
  inferInstanceAs (Decidable (∀ c ∈ s.locals[i]?, _))

theorem account_set (hc : s.locals[i]? = some (q, stage)) (net' : HebbianNetwork)
    (stage' : Stage) :
    account V { shared := net', locals := s.locals.set i (q, stage') }
      = net'.graph.total + net'.graph.setAside
        + ((s.locals.map fun c => inFlight V c.2).sum - inFlight V stage + inFlight V stage') := by
  rw [account, Parties.sum_set (fun c => inFlight V c.2) hc]

theorem Kept.set (h : Kept V s) (hc : s.locals[i]? = some (q, stage)) (s' : net'.Sound)
    (hn : net'.graph.nodes = V) (hstage : Noted V stage')
    (hp : (∀ k ∈ V, net'.graph.stimuli k = 0) ∨
      ∃ j, SpreadsNext (s.locals.set i (q, stage')) j) :
    Kept V { shared := net', locals := s.locals.set i (q, stage') } where
  sound := s'
  nodes := hn
  requests := Parties.forall_set h.requests (h.requests (q, stage) (Parties.mem_of_get hc))
  noted := Parties.forall_set h.noted hstage
  pending := hp

/-- A call that has not consolidated leaves the stimuli pending for those that have. -/
theorem Kept.still_pending (h : Kept V s) (hc : s.locals[i]? = some (q, stage))
    (hne : ∀ data, stage ≠ .consolidated data)
    (hst : net'.graph.stimuli = s.shared.graph.stimuli) (stage' : Stage) :
    (∀ k ∈ V, net'.graph.stimuli k = 0) ∨ ∃ j, SpreadsNext (s.locals.set i (q, stage')) j := by
  rcases h.pending with h0 | ⟨j, q', data, hj⟩
  · exact .inl fun k hk => by rw [hst, h0 k hk]
  · have hij : i ≠ j := by
      rintro rfl
      rw [hc, Option.some.injEq, Prod.mk.injEq] at hj
      exact hne data hj.2
    exact .inr ⟨j, q', data, (Parties.get_set_ne hij _).trans hj⟩

theorem Kept.valid (h : Kept V s) (hc : s.locals[i]? = some (q, stage)) : q.Valid := by
  obtain ⟨hb, hsub⟩ := h.requests _ (Parties.mem_of_get hc)
  refine hb.valid fun k hk => h.sound.wf.isHandle_of_mem ?_
  rw [h.nodes]
  exact hsub hk

/-! ## One phase -/

/-- The first phase notes the rent of every node and takes nothing. -/
theorem Kept.turn_ready (h : Kept V s) (hc : s.locals[i]? = some (q, .ready)) :
    ∃ s', s.turn phase i = .ok s' ∧ Kept V s' ∧ account V s' = account V s := by
  obtain ⟨data, hrun, wf, hledger⟩ := phase_ready h.sound q
  refine ⟨_, Parties.turn_ok hc hrun, h.set hc h.sound h.nodes ?_ ?_, ?_⟩
  · refine ⟨wf, ?_, fun k => ?_, ?_⟩
    · rw [hledger, ← h.nodes]
      exact Subset.refl _
    · rw [hledger]
      rfl
    · have htotal : data.totalRent = data.ledger.totalRent := rfl
      rw [htotal, hledger, ← h.nodes]
      rfl
  · exact h.still_pending hc (fun _ => by simp) rfl _
  · rw [account_set hc, account]
    simp [inFlight]

/-- Wages less rent are the tokens the call has taken, since the boosts add up to 1. -/
theorem inFlight_wagesDistributed {g : Graph Key} {data data' : StimuliData} (hb : q.Balanced)
    (hnamed : q.named ⊆ V) (hwages : ∀ k, data.ledger.wages k = 0)
    (htotal : data.totalRent = ∑ k ∈ V, data.ledger.rent k)
    (hledger : data'.ledger = g.distributeWages q.named q.boost data.ledger) :
    inFlight V (.wagesDistributed data') = g.tokens := by
  have hwages' : ∀ k, data'.ledger.wages k = q.boost k * (g.tokens + data.totalRent) := by
    intro k
    rw [hledger]
    exact (congrArg (· + _) (hwages k)).trans (zero_add _)
  have hrent' : data'.ledger.rent = data.ledger.rent := by rw [hledger]; rfl
  rw [inFlight, sum_sub_distrib, hrent', ← htotal]
  simp only [hwages']
  rw [← sum_mul, hb.sum_boost hnamed, one_mul, add_sub_cancel_right]

/-- The second phase takes the tokens of the network and promises them to the nodes. -/
theorem Kept.turn_rentCollected {data : StimuliData} (h : Kept V s)
    (hc : s.locals[i]? = some (q, .rentCollected data)) :
    ∃ s', s.turn phase i = .ok s' ∧ Kept V s' ∧ account V s' = account V s := by
  obtain ⟨hb, hnamed⟩ := h.requests _ (Parties.mem_of_get hc)
  obtain ⟨wf, hkeys, hwages, htotal⟩ := h.noted _ (Parties.mem_of_get hc)
  obtain ⟨data', net', hrun, wf', s', hg, hledger⟩ :=
    phase_rentCollected (q := q) h.sound wf (h.valid hc)
  refine ⟨_, Parties.turn_ok hc hrun, h.set hc s' ?_ ⟨wf', ?_⟩ ?_, ?_⟩
  · rw [hg]
    exact h.nodes
  · rw [hledger]
    exact hkeys.trans subset_union_left
  · exact h.still_pending hc (fun _ => by simp) (by rw [hg]; rfl) _
  · have htotal' : s.shared.graph.total
        = s.shared.graph.alienateTokens.total + s.shared.graph.tokens := by
      simp [Graph.total, Graph.alienateTokens, Graph.held]
    have haside : s.shared.graph.alienateTokens.setAside = s.shared.graph.setAside := rfl
    have hflight : inFlight V (.rentCollected data) = 0 := rfl
    rw [account_set hc, account, hg, inFlight_wagesDistributed hb hnamed hwages htotal hledger,
      htotal', haside, hflight]
    ring

/-- The third phase pays what was promised, if nothing is set aside that it would overwrite. -/
theorem Kept.turn_wagesDistributed {data : StimuliData} (h : Kept V s)
    (hc : s.locals[i]? = some (q, .wagesDistributed data)) (hl : s.shared.graph.setAside = 0) :
    ∃ s', s.turn phase i = .ok s' ∧ Kept V s' ∧ account V s' = account V s := by
  obtain ⟨wf, hkeys⟩ := h.noted _ (Parties.mem_of_get hc)
  rcases phase_wagesDistributed (q := q) h.sound wf with ⟨-, net', hrun, s', hg⟩ | ⟨hbad, -⟩
  · refine ⟨_, Parties.turn_ok hc hrun, h.set hc s' ?_ trivial ?_, ?_⟩
    · rw [hg]
      exact h.nodes
    · exact .inr ⟨i, q, data, Parties.get_set_self hc _⟩
    · have hflight : inFlight V (.wagesDistributed data)
          = ∑ k ∈ s.shared.graph.nodes, data.ledger.wages k
            - ∑ k ∈ s.shared.graph.nodes, data.ledger.rent k := by
        rw [h.nodes, ← sum_sub_distrib]
        rfl
      have htokens : (s.shared.graph.consolidate rates data.ledger).tokens
          = s.shared.graph.tokens := rfl
      have hflight' : inFlight V (.consolidated data) = 0 := rfl
      rw [account_set hc, account, hflight, hflight', hg, hl, Graph.total,
        Graph.held_consolidate, Graph.setAside_consolidate, htokens, Graph.total]
      ring
  · -- every node of the network has an entry since the first phase
    exact absurd (h.nodes ▸ hkeys) hbad

/-- The last phase empties what was set aside, if all of it has an edge to leave over. -/
theorem Kept.turn_consolidated {data : StimuliData} (h : Kept V s)
    (hc : s.locals[i]? = some (q, .consolidated data))
    (hl : ∀ k ∈ s.shared.graph.nodes, s.shared.graph.stimuli k ≠ 0 → s.shared.graph.Weighted k) :
    ∃ s', s.turn phase i = .ok s' ∧ Kept V s' ∧ account V s' = account V s := by
  obtain ⟨net', hrun, s', hg⟩ := phase_consolidated h.sound q data
  have hzero : ∀ k ∈ V, net'.graph.stimuli k = 0 := fun k hk => by
    rw [hg]
    exact if_pos (h.nodes.symm ▸ hk)
  refine ⟨_, Parties.turn_ok hc hrun, h.set hc s' ?_ trivial (.inl hzero), ?_⟩
  · rw [hg]
    exact h.nodes
  · have haside : net'.graph.setAside = 0 := by
      refine sum_eq_zero fun k hk => hzero k ?_
      rw [hg] at hk
      exact h.nodes ▸ hk
    have hflight : inFlight V (.consolidated data) = 0 := rfl
    have hflight' : inFlight V .finished = 0 := rfl
    have htokens : s.shared.graph.spread.tokens = s.shared.graph.tokens := rfl
    rw [account_set hc, account, hflight, hflight', haside, hg, Graph.total,
      Graph.held_spread h.sound.closed hl, htokens, Graph.total]
    ring

theorem Kept.turn_finished (h : Kept V s) (hc : s.locals[i]? = some (q, .finished)) :
    ∃ s', s.turn phase i = .ok s' ∧ Kept V s' ∧ account V s' = account V s := by
  have hrun : phase (q, .finished) s.shared = .ok (s.shared, q, .finished) := phase_ok rfl
  refine ⟨_, Parties.turn_ok hc hrun, h.set hc h.sound h.nodes trivial ?_, ?_⟩
  · exact h.still_pending hc (fun _ => by simp) rfl _
  · rw [account_set hc, account]
    simp [inFlight]

/-- **Each phase is possible and, where it is lossless, keeps all tokens.** -/
theorem Kept.turn (h : Kept V s) (hl : Lossless s i) :
    ∃ s', s.turn phase i = .ok s' ∧ Kept V s' ∧ account V s' = account V s := by
  cases hc : s.locals[i]? with
  | none => exact ⟨s, Parties.turn_none hc, h, rfl⟩
  | some c =>
    obtain ⟨q, stage⟩ := c
    have hl : LosslessAt s.shared.graph stage := hl (q, stage) hc
    cases stage with
    | ready => exact h.turn_ready hc
    | rentCollected data => exact h.turn_rentCollected hc
    | wagesDistributed data => exact h.turn_wagesDistributed hc hl
    | consolidated data => exact h.turn_consolidated hc hl
    | finished => exact h.turn_finished hc

/-! ## All phases -/

variable {requests : List HandleCount} {schedule : List Nat}

theorem stimuli_of_reachable (hn : net.Reachable) (k : Key) : net.graph.stimuli k = 0 := by
  refine Reachable.invariant (fun g => ∀ k, g.stimuli k = 0) (fun _ => rfl)
    (fun g r hg k => ?_) hn k
  cases r with
  | correlation l =>
    rw [Graph.process, Graph.correlation_stimuli]
    exact hg k
  | stimulus q =>
    show (if k ∈ g.nodes then 0 else if k ∈ g.nodes then _ else g.stimuli k) = 0
    by_cases hk : k ∈ g.nodes
    · rw [if_pos hk]
    · rw [if_neg hk, if_neg hk, hg k]

theorem kept_start (hn : net.Reachable)
    (hq : ∀ q ∈ requests, q.Balanced ∧ q.named ⊆ net.graph.nodes) :
    Kept net.graph.nodes (start net requests) where
  sound := hn.sound
  nodes := rfl
  requests c hc := by
    obtain ⟨q, hq', rfl⟩ := List.mem_map.mp hc
    exact hq q hq'
  noted c hc := by
    obtain ⟨q, -, rfl⟩ := List.mem_map.mp hc
    trivial
  pending := .inl fun k _ => stimuli_of_reachable hn k

theorem account_start (hn : net.Reachable) :
    account net.graph.nodes (start net requests) = net.graph.total := by
  have haside : (start net requests).shared.graph.setAside = 0 :=
    sum_eq_zero fun k _ => stimuli_of_reachable hn k
  have hflight : ((start net requests).locals.map fun c =>
      inFlight net.graph.nodes c.2).sum = 0 := by
    refine List.sum_eq_zero fun x hx => ?_
    simp only [start, List.map_map, List.mem_map] at hx
    obtain ⟨q, -, rfl⟩ := hx
    rfl
  rw [account, haside, hflight, add_zero, add_zero]
  rfl

/-- When all calls have returned, all tokens are tokens of the network. -/
theorem Kept.account_finished (h : Kept V s) (hf : s.Finished) :
    account V s = s.shared.graph.total := by
  have hstage : ∀ c ∈ s.locals, c.2 = .finished := by
    intro c hc
    have hc' : Returned c.2 := hf c hc
    cases hst : c.2 with
    | finished => rfl
    | ready | rentCollected _ | wagesDistributed _ | consolidated _ =>
      rw [hst] at hc'
      exact hc'.elim
  have haside : s.shared.graph.setAside = 0 := by
    rcases h.pending with h0 | ⟨j, q, data, hj⟩
    · exact sum_eq_zero fun k hk => h0 k (h.nodes ▸ hk)
    · have hbad := hstage _ (Parties.mem_of_get hj)
      simp at hbad
  have hflight : (s.locals.map fun c => inFlight V c.2).sum = 0 := by
    refine List.sum_eq_zero fun x hx => ?_
    obtain ⟨c, hc, rfl⟩ := List.mem_map.mp hx
    rw [hstage c hc]
    rfl
  rw [account, haside, hflight, add_zero, add_zero]

/--
**Overlapping stimuli keep the total**, in every interleaving of their phases that is lossless
at each step.
-/
theorem overlap_total_fixed (hn : net.Reachable)
    (hq : ∀ q ∈ requests, q.Balanced ∧ q.named ⊆ net.graph.nodes)
    (hl : AllSteps (Parties.step phase) Lossless (start net requests) schedule) :
    ∃ s, run (Parties.step phase) (start net requests) schedule = some s ∧
      (Finished s → s.shared.graph.total = net.graph.total) := by
  obtain ⟨s, hrun, hkept, haccount⟩ := run_total
    (fun s => Kept net.graph.nodes s ∧ account net.graph.nodes s = net.graph.total)
    (fun s i hI hi => by
      obtain ⟨s', hturn, hkept, haccount⟩ := hI.1.turn hi
      exact ⟨s', Parties.step_of_turn hturn, hkept, haccount.trans hI.2⟩)
    schedule (start net requests) hl ⟨kept_start hn hq, account_start hn⟩
  exact ⟨s, hrun, fun hf => (hkept.account_finished hf).symm.trans haccount⟩

/-- Two stimuli that overlap up to the second traversal, which they take one after the other. -/
theorem overlap_total_fixed_ab :
    ∃ s, run (Parties.step phase) (start pairNetwork [stimulusOfA, stimulusOfA])
        [0, 0, 1, 1, 0, 0, 1, 1] = some s ∧
      (Finished s → s.shared.graph.total = pairNetwork.graph.total) :=
  overlap_total_fixed pairNetwork_reachable (by decide +kernel) (by decide +kernel)

/-- Two stimuli that both consolidate before one of them spreads. -/
theorem overlap_total_lost_ab :
    pairNetwork.Reachable ∧
    (∀ k ∈ pairNetwork.graph.nodes, (pairNetwork.graph.neighbors k).Nonempty) ∧
    (∀ q ∈ [stimulusOfA, stimulusOfA],
      q.Balanced ∧ q.named ⊆ pairNetwork.graph.nodes) ∧
    pairNetwork.graph.total = 1 ∧
    (run (Parties.step phase) (start pairNetwork [stimulusOfA, stimulusOfA])
        [0, 0, 1, 1, 0, 1, 0, 1]).map (fun s => (decide (Finished s), s.shared.graph.total))
      = some (true, 9 / 10) :=
  ⟨pairNetwork_reachable, by decide +kernel, by decide +kernel, by decide +kernel,
    by decide +kernel⟩

end Overlap

end AttentionBroker
