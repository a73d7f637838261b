import AttentionBroker.Hebbian.StimulusSafety

/-!
# The spreading rate among correlations

`spread_stimuli` reads `largest_arity` once, at the start. The second traversal divides the
arity of every node by it, as that arity is by then. The rate has an upper bound as long as
no arity has outgrown what was read.

`rate_bounded_iff` says that this is exact, and that nothing else in a call can make
importance negative but counts of its request that are negative themselves.
-/

namespace AttentionBroker

open Infra Finset TokenSpreader HebbianNetwork

namespace Overlap

variable {net : HebbianNetwork} {s s' : Overlap} {q : HandleCount} {c₁ c₂ c₃ : List (List Key)}
  {data : StimuliData} {k : Key}

/-- No handle has negative importance. -/
def NoDebt (s : Overlap) : Prop := ∀ k, 0 ≤ s.shared.graph.importance k

/-- The rate of every node is within the bounds of the broker. -/
def RatesBounded (s : Overlap) (data : StimuliData) : Prop := ∀ k ∈ s.shared.graph.nodes,
  AttentionBrokerServer.spreadingRateLowerbound ≤ data.spreadingRate (s.shared.graph.arity k) ∧
    data.spreadingRate (s.shared.graph.arity k) ≤ AttentionBrokerServer.spreadingRateUpperbound

/-- No arity has outgrown the largest arity that the network had when the call started. -/
def Current (net : HebbianNetwork) (s : Overlap) : Prop :=
  ∀ k ∈ s.shared.graph.nodes, s.shared.graph.arity k ≤ net.graph.largestArity

/-- The wages of a node do not take more than its rent leaves it. -/
def Payable (net : HebbianNetwork) (q : HandleCount) : Prop := ∀ k ∈ net.graph.nodes,
  0 ≤ (1 - rates.rent) * net.graph.importance k + q.boost k * net.graph.toDistribute rates

/-- All phases of a call, with correlations between them. -/
def amongCorrelations (c₁ c₂ c₃ : List (List Key)) : List Action :=
  prepare c₁ c₂ ++ .phase 0 :: (correlations c₃ ++ [.phase 0])

/-- Wages of a request without negative counts take nothing. -/
theorem payable_of_nonneg (hi : ∀ k, 0 ≤ net.graph.importance k) (ht : 0 ≤ net.graph.tokens)
    (hq : ∀ e ∈ q.stimuli, 0 ≤ e.2.val) : Payable net q := by
  have hrent := rates_proper
  have hdist : 0 ≤ net.graph.toDistribute rates :=
    add_nonneg ht (sum_nonneg fun k _ => mul_nonneg hrent.rent_pos.le (hi k))
  intro k _
  have hboost : 0 ≤ q.boost k :=
    div_nonneg (by exact_mod_cast HandleCount.count_nonneg hq k) (Nat.cast_nonneg _)
  exact add_nonneg (mul_nonneg (sub_nonneg.mpr hrent.rent_lt.le) (hi k)) (mul_nonneg hboost hdist)

/-! ## One traversal -/

/-- The rates are bounded exactly when no arity is above the one that was read. -/
theorem ratesBounded_iff (wf : data.Wf) (hpos : 0 < net.graph.largestArity)
    (harity : data.largestArity = net.graph.largestArity) :
    RatesBounded s data ↔ Current net s := by
  have hupper : AttentionBrokerServer.spreadingRateUpperbound
      = rates.lowerbound + rates.rangeSize := by decide +kernel
  refine forall₂_congr fun k _ => ?_
  rw [wf.spreadingRate, harity, hupper,
    Rates.spreading_le_iff (by decide +kernel) hpos]
  exact and_iff_right (Rates.lowerbound_le rates_proper _ _)

section consolidate

variable {g : Graph Key} {ledger : Ledger Key}

/-- **Consolidation leaves no debt** where the rates are bounded and rent and wages leave none. -/
theorem consolidate_nonneg (hi : ∀ k, 0 ≤ g.importance k)
    (hrate : ∀ k ∈ g.nodes, 0 ≤ rates.spreading ledger.largestArity (g.arity k) ∧
      rates.spreading ledger.largestArity (g.arity k) ≤ 1)
    (hs : ∀ k ∈ g.nodes, 0 ≤ g.settled ledger k) (k : Key) :
    0 ≤ (g.consolidate rates ledger).importance k ∧
      (k ∈ g.nodes → 0 ≤ (g.consolidate rates ledger).stimuli k) := by
  by_cases hk : k ∈ g.nodes
  · have himp : (g.consolidate rates ledger).importance k
        = g.settled ledger k - g.toSpread rates ledger k := if_pos hk
    have hstim : (g.consolidate rates ledger).stimuli k = g.toSpread rates ledger k := if_pos hk
    rw [himp, hstim]
    exact ⟨sub_nonneg.mpr (mul_le_of_le_one_right (hs k hk) (hrate k hk).2),
      fun _ => mul_nonneg (hs k hk) (hrate k hk).1⟩
  · have himp : (g.consolidate rates ledger).importance k = g.importance k := if_neg hk
    rw [himp]
    exact ⟨hi k, fun h => absurd h hk⟩

/-- A node that consolidation leaves without debt had none after rent and wages. -/
theorem settled_nonneg (hk : k ∈ g.nodes)
    (hrate : rates.spreading ledger.largestArity (g.arity k) < 1)
    (h : 0 ≤ (g.consolidate rates ledger).importance k) : 0 ≤ g.settled ledger k := by
  have himp : (g.consolidate rates ledger).importance k
      = g.settled ledger k - g.toSpread rates ledger k := if_pos hk
  have hfactor : g.settled ledger k - g.toSpread rates ledger k
      = g.settled ledger k * (1 - rates.spreading ledger.largestArity (g.arity k)) := by
    rw [Graph.toSpread]
    ring
  rw [himp, hfactor] at h
  exact nonneg_of_mul_nonneg_left h (sub_pos.mpr hrate)

/-- Spreading leaves no debt where nothing negative was set aside. -/
theorem spread_nonneg (hi : ∀ k, 0 ≤ g.importance k) (hs : ∀ k ∈ g.nodes, 0 ≤ g.stimuli k)
    (k : Key) : 0 ≤ g.spread.importance k := by
  have himp : g.spread.importance k = g.importance k
      + ∑ w ∈ g.nodes with k ∈ g.neighbors w, g.share w k (g.stimuli w) := rfl
  rw [himp]
  exact add_nonneg (hi k)
    (sum_nonneg fun w hw => Graph.share_nonneg (hs w (mem_filter.mp hw).1))

/-- Correlations of nodes before it do not change that. -/
theorem spread_correlations_nonneg {lists : List (List Key)} (hi : ∀ k, 0 ≤ g.importance k)
    (hs : ∀ k ∈ g.nodes, 0 ≤ g.stimuli k) (hl : ∀ l ∈ lists, ∀ k ∈ l, k ∈ g.nodes) (k : Key) :
    0 ≤ (lists.foldl Graph.correlation g).spread.importance k := by
  obtain ⟨himp, hstim, -⟩ := correlations_fields lists g
  refine spread_nonneg (fun k => by rw [himp]; exact hi k) (fun k hk => ?_) k
  rw [hstim]
  rcases mem_correlations_nodes.mp hk with hk | ⟨l, hl', hk⟩
  · exact hs k hk
  · exact hs k (hl l hl' k hk)

end consolidate

/-- The rates a call uses are less than 1 while no arity has outgrown the one it read. -/
theorem Current.spreading_lt (hc : Current net s) (hpos : 0 < net.graph.largestArity)
    (harity : data.ledger.largestArity = net.graph.largestArity)
    (hk : k ∈ s.shared.graph.nodes) :
    rates.spreading data.ledger.largestArity (s.shared.graph.arity k) < 1 := by
  have hle := (Rates.spreading_le_iff (r := rates) (by decide +kernel) hpos).mpr (hc k hk)
  rw [harity]
  exact hle.trans_lt (by decide +kernel)

/-! ## The whole call -/

/-- The last two phases, among correlations of nodes. -/
theorem run_consolidated (h : Prepared net q (c₁ ++ c₂) s data)
    (hknown : Known net q (c₁ ++ c₂)) (hl : ∀ l ∈ c₃, ∀ k ∈ l, k ∈ s.shared.graph.nodes) :
    ∃ net₁ net₂, next s (.phase 0)
        = some { shared := net₁, locals := [(q, .consolidated data)] } ∧
      net₁.graph = s.shared.graph.consolidate rates data.ledger ∧
      run next { shared := net₁, locals := [(q, .consolidated data)] }
          (correlations c₃ ++ [.phase 0]) = some { shared := net₂, locals := [(q, .finished)] } ∧
      net₂.graph = (c₃.foldl Graph.correlation net₁.graph).spread ∧
      ImportanceKept net₁.graph.importance { shared := net₁, locals := [(q, .consolidated data)] }
        (correlations c₃ ++ [.phase 0]) := by
  have hcall : s.locals[0]? = some (q, .wagesDistributed data) := by rw [h.calls]; rfl
  rcases phase_wagesDistributed (q := q) h.sound h.wf with
    ⟨-, net₁, hrun₁, s₁, hg₁⟩ | ⟨hsub, -⟩
  · have hturn₁ : next s (.phase 0)
        = some { shared := net₁, locals := [(q, .consolidated data)] } := by
      refine next_of_act ?_
      rw [act, Parties.turn_ok hcall hrun₁, h.calls]
      rfl
    have hhandle : ∀ l ∈ c₃, ∀ k ∈ l, IsHandle k := fun l hl' k hk =>
      h.sound.wf.isHandle_of_mem (hl l hl' k hk)
    obtain ⟨net₂, hrun₂, s₂, hg₂, himp₂, hkept₂⟩ :=
      run_correlations (s := { shared := net₁, locals := [(q, .consolidated data)] }) s₁ hhandle
    obtain ⟨net₃, hrun₃, s₃, hg₃⟩ := phase_consolidated s₂ q data
    have hturn₃ : next { shared := net₂, locals := [(q, .consolidated data)] } (.phase 0)
        = some { shared := net₃, locals := [(q, .finished)] } :=
      next_of_act (act_single hrun₃)
    refine ⟨net₁, net₃, hturn₁, hg₁, ?_, by rw [hg₃, hg₂], ?_⟩
    · rw [run_of_run hrun₂, run_of_step hturn₃]
      rfl
    · refine allSteps_append.mpr ⟨hkept₂, fun s hs => ?_⟩
      obtain rfl := Option.some.inj (hrun₂.symm.trans hs)
      exact ⟨himp₂, fun _ _ => trivial⟩
  · exact absurd (h.known_iff.mpr hknown) hsub

theorem ImportanceKept.noDebt {importance : Key → ℚ} {as : List Action}
    (h : ImportanceKept importance s as) (hi : ∀ k, 0 ≤ importance k) :
    AllSteps next (fun s _ => NoDebt s) s as :=
  h.mono fun s _ hs k => by
    rw [hs]
    exact hi k

/-- Rent and wages of the call are those of the network it started on. -/
theorem settled_start (hledger : data.ledger = net.graph.wagesLedger rates q.named q.boost)
    (himp : s.shared.graph.importance = net.graph.importance) :
    s.shared.graph.settled data.ledger k
      = (1 - rates.rent) * net.graph.importance k + q.boost k * net.graph.toDistribute rates := by
  have hset : net.graph.settled (net.graph.wagesLedger rates q.named q.boost) k
      = (1 - rates.rent) * net.graph.importance k + q.boost k * net.graph.toDistribute rates :=
    Graph.settled_wagesLedger k
  rw [hledger, ← hset, Graph.settled, himp]
  rfl

/--
**When the spreading rate stays within its bounds.**

A stimulus among correlations of nodes completes. The rate of every node is within the
bounds and nobody is ever in debt exactly if no arity has outgrown the one read at the start
and no wages are negative beyond what rent leaves.
-/
theorem rate_bounded_iff (hn : net.Reachable) (hq : q.Valid) (hpos : 0 < net.graph.largestArity)
    (hi : ∀ k ∈ net.graph.nodes, 0 ≤ net.graph.importance k)
    (hl : ∀ l ∈ c₁ ++ c₂ ++ c₃, ∀ k ∈ l, k ∈ net.graph.nodes) :
    ∃ s data s', run next (start net [q]) (prepare c₁ c₂) = some s ∧
      s.locals = [(q, .wagesDistributed data)] ∧
      run next (start net [q]) (amongCorrelations c₁ c₂ c₃) = some s' ∧ Finished s' ∧
      ((RatesBounded s data ∧
          AllSteps next (fun s _ => NoDebt s) (start net [q]) (amongCorrelations c₁ c₂ c₃) ∧
          NoDebt s') ↔ Current net s ∧ Payable net q) := by
  have hi : ∀ k, 0 ≤ net.graph.importance k := fun k => by
    by_cases hk : k ∈ net.graph.nodes
    · exact hi k hk
    · rw [hn.sound.wf.importance_eq_zero hk]
  have hknown : Known net q (c₁ ++ c₂) := fun l hl' k hk =>
    .inl (hl l (List.mem_append_left _ hl') k hk)
  have hhandle : ∀ l ∈ c₁ ++ c₂, ∀ k ∈ l, IsHandle k := fun l hl' k hk =>
    hn.sound.wf.isHandle_of_mem (hl l (List.mem_append_left _ hl') k hk)
  obtain ⟨s, data, hrun, hp, hledger, himp, hkept⟩ := run_prepared hn.sound hq hhandle
  have hnodes : s.shared.graph.nodes = net.graph.nodes := by
    ext k
    rw [hp.nodes]
    exact or_iff_left_of_imp fun ⟨l, hl', hk⟩ => hl l (List.mem_append_left _ hl') k hk
  have hl₃ : ∀ l ∈ c₃, ∀ k ∈ l, k ∈ s.shared.graph.nodes := fun l hl' k hk =>
    hnodes ▸ hl l (List.mem_append_right _ hl') k hk
  obtain ⟨net₁, net₂, hstep, hg₁, hrun₂, hg₂, hkept₂⟩ := run_consolidated hp hknown hl₃
  have harity : data.ledger.largestArity = net.graph.largestArity := by
    rw [hledger]
    rfl
  have hrates := ratesBounded_iff (s := s) hp.wf hpos harity
  have hall : run next (start net [q]) (amongCorrelations c₁ c₂ c₃)
      = some { shared := net₂, locals := [(q, .finished)] } := by
    rw [amongCorrelations, run_of_run hrun, run_of_step hstep, hrun₂]
  have hfinished : Finished { shared := net₂, locals := [(q, .finished)] } := by
    intro c hc
    obtain rfl := List.mem_singleton.mp hc
    trivial
  refine ⟨s, data, _, hrun, hp.calls, hall, hfinished, ?_⟩
  constructor
  · rintro ⟨hbounded, hsteps, -⟩
    have hc := hrates.mp hbounded
    refine ⟨hc, fun k hk => ?_⟩
    -- the state right after consolidation is the one that shows a debt
    have hk' : k ∈ s.shared.graph.nodes := hnodes ▸ hk
    have hlast := (allSteps_append.mp hsteps).2 s hrun
    have hdebt : NoDebt { shared := net₁, locals := [(q, .consolidated data)] } :=
      (hlast.2 _ hstep).head (by simp)
    rw [← settled_start hledger himp]
    exact settled_nonneg hk' (hc.spreading_lt hpos harity hk') (hg₁ ▸ hdebt k)
  · rintro ⟨hc, hpay⟩
    have hcons : ∀ k, 0 ≤ (s.shared.graph.consolidate rates data.ledger).importance k ∧
        (k ∈ s.shared.graph.nodes →
          0 ≤ (s.shared.graph.consolidate rates data.ledger).stimuli k) :=
      consolidate_nonneg (fun k => by rw [himp]; exact hi k)
        (fun k hk => ⟨rates_proper.lowerbound_pos.le.trans
          (Rates.lowerbound_le rates_proper _ _), (hc.spreading_lt hpos harity hk).le⟩)
        fun k hk => by rw [settled_start hledger himp]; exact hpay k (hnodes ▸ hk)
    rw [← hg₁] at hcons
    have hnodes₁ : net₁.graph.nodes = s.shared.graph.nodes := by rw [hg₁]; rfl
    refine ⟨hrates.mpr hc, allSteps_append.mpr ⟨hkept.noDebt hi, fun s₁ hs₁ => ?_⟩, fun k => ?_⟩
    · obtain rfl := Option.some.inj (hrun.symm.trans hs₁)
      refine ⟨fun k => by rw [himp]; exact hi k, fun s₂ hs₂ => ?_⟩
      obtain rfl := Option.some.inj (hstep.symm.trans hs₂)
      exact hkept₂.noDebt fun k => (hcons k).1
    · show 0 ≤ net₂.graph.importance k
      rw [hg₂]
      exact spread_correlations_nonneg (fun k => (hcons k).1)
        (fun k hk => (hcons k).2 (hnodes₁ ▸ hk)) (fun l hl' k hk => hnodes₁ ▸ hl₃ l hl' k hk) k

/-- `ab` after the first phase, and `b` before the last one. -/
theorem rate_bounded_iff_ab :
    ∃ s data s', run next (start pairNetwork [stimulusOfA])
        (prepare [[handleOf 97, handleOf 98]] []) = some s ∧
      s.locals = [(stimulusOfA, .wagesDistributed data)] ∧
      run next (start pairNetwork [stimulusOfA])
        (amongCorrelations [[handleOf 97, handleOf 98]] [] [[handleOf 98]]) = some s' ∧
      Finished s' ∧
      ((RatesBounded s data ∧ AllSteps next (fun s _ => NoDebt s) (start pairNetwork [stimulusOfA])
          (amongCorrelations [[handleOf 97, handleOf 98]] [] [[handleOf 98]]) ∧ NoDebt s') ↔
        Current pairNetwork s ∧ Payable pairNetwork stimulusOfA) :=
  rate_bounded_iff pairNetwork_reachable (stimulusOf_valid _ (by decide +kernel))
    (by decide +kernel) (by decide +kernel) (by decide +kernel)

/-! ## A rate above its bound -/

/-- The rate the first call uses for a node, when it consolidates next. -/
def rateOf (s : Overlap) (k : Key) : Option ImportanceType :=
  s.locals.head?.bind fun call =>
    match call.2 with
    | .wagesDistributed data => some (data.spreadingRate (s.shared.graph.arity k))
    | _ => none

/-- Eleven handles that were only correlated alone. -/
def loners : List Key := [99, 100, 101, 102, 48, 49, 50, 51, 52, 53, 54].map handleOf

/-- The network after `ab` and the eleven handles, each alone. Its largest arity is 1. -/
def looseNetwork : HebbianNetwork :=
  afterRequests (.correlation [handleOf 97, handleOf 98] :: loners.map fun k => .correlation [k])

/-- `a` with each of the eleven handles. -/
def gatherings : List (List Key) := loners.map fun k => [handleOf 97, k]

/--
`a` meets eleven other nodes between the first two phases of its stimulus. It ends with 12
times the largest arity that was read, spreads 109/100 of its importance and owes the rest.
-/
theorem rate_unbounded_loose :
    looseNetwork.Reachable ∧ stimulusOfA.Valid ∧ stimulusOfA.Balanced ∧
    0 < looseNetwork.graph.largestArity ∧
    (∀ k ∈ looseNetwork.graph.nodes, 0 ≤ looseNetwork.graph.importance k) ∧
    (∀ l ∈ gatherings, ∀ k ∈ l, k ∈ looseNetwork.graph.nodes) ∧
    (run next (start looseNetwork [stimulusOfA]) (prepare gatherings [])).bind (fun s =>
        (next s (.phase 0)).map fun s₁ =>
          (rateOf s (handleOf 97), s₁.shared.graph.importance (handleOf 97)))
      = some (some (109 / 100), -9 / 100) := by
  refine ⟨reachable_afterRequests ?_, by decide +kernel⟩
  have hvalid : ∀ k ∈ handleOf 97 :: handleOf 98 :: loners, IsHandle k := by decide +kernel
  intro r hr
  rcases List.mem_cons.mp hr with rfl | hr
  · intro k hk
    exact hvalid k (List.mem_of_mem_take (i := 2) hk)
  · obtain ⟨k, hk, rfl⟩ := List.mem_map.mp hr
    intro k' hk'
    rw [List.mem_singleton.mp hk']
    exact hvalid k (List.mem_cons_of_mem _ (List.mem_cons_of_mem _ hk))

end Overlap

end AttentionBroker
