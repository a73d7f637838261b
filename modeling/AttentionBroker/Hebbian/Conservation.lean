import Mathlib.Tactic.NormNum
import AttentionBroker.Hebbian.Requests
import AttentionBroker.Hebbian.Tokens

/-!
# Tokens over a sequence of requests

The documentation of `TokenSpreader` promises a fixed amount of tokens. A node without
neighbors breaks it: what it sets aside is divided among nobody. `total_tokens_fixed` is
the promise for the runs in which that does not happen. Without that condition, and for
requests that may name unknown handles, `no_inflation_no_debt` says that the total never
grows, that no node owes tokens and that every node spreads a part within the bounds.
-/

namespace AttentionBroker

open Infra Finset

/-! ## Boosts -/

namespace TokenSpreader

theorem countIn_eq_zero {l : List (Key × Count)} {k : Key} (hk : k ∉ handlesOf l) :
    countIn l k = 0 := by
  induction l with
  | nil => rfl
  | cons e l ih =>
    rw [handlesOf_cons] at hk
    rw [countIn_cons]
    by_cases he : e.1 ≠ sumKey
    · rw [if_pos he, mem_insert, not_or] at hk
      rw [if_pos he, if_neg (Ne.symm hk.1), ih hk.2, add_zero]
    · rw [if_neg he] at hk ⊢
      rw [ih hk, add_zero]

/-- The counts of the handles in a set add up to what the entries for them count. -/
theorem sum_countIn (l : List (Key × Count)) (V : Finset Key) :
    ∑ k ∈ V, countIn l k
      = ((l.filter fun e => e.1 ≠ sumKey).map fun e => if e.1 ∈ V then e.2.val else 0).sum := by
  induction l with
  | nil => exact sum_const_zero
  | cons e l ih =>
    simp only [countIn_cons, sum_add_distrib, ih]
    by_cases he : e.1 ≠ sumKey
    · simp [he]
    · simp [he]

theorem rates_proper : rates.Proper := by
  constructor <;> norm_num [rates, AttentionBrokerServer.rentRate,
    AttentionBrokerServer.spreadingRateLowerbound, AttentionBrokerServer.spreadingRateUpperbound]

end TokenSpreader

open TokenSpreader

namespace HandleCount

variable {q : HandleCount} {V : Finset Key}

/-- `SUM` is the positive sum of the other counts. -/
def Balanced (q : HandleCount) : Prop :=
  (q.find sumKey).map Subtype.val = some q.total ∧ 0 < q.total

instance (q : HandleCount) : Decidable q.Balanced := inferInstanceAs (Decidable (_ ∧ _))

/-- `SUM` is positive and no less than the sum of the other counts, which are not negative. -/
structure Covered (q : HandleCount) : Prop where
  sum : ∃ sum, q.find sumKey = some sum ∧ 0 < sum.val ∧ q.total ≤ sum.val
  nonneg : ∀ e ∈ q.stimuli, 0 ≤ e.2.val

instance (q : HandleCount) : Decidable q.Valid :=
  decidable_of_iff ((q.find sumKey).isSome ∧ ∀ e ∈ q.handleCount, e.1 ≠ sumKey → IsHandle e.1)
    ⟨fun h => ⟨Option.isSome_iff_exists.mp h.1, h.2⟩,
      fun h => ⟨Option.isSome_iff_exists.mpr h.sum, h.handles⟩⟩

instance (q : HandleCount) : Decidable q.Covered :=
  decidable_of_iff ((∃ sum ∈ q.find sumKey, 0 < sum.val ∧ q.total ≤ sum.val) ∧
      ∀ e ∈ q.stimuli, 0 ≤ e.2.val)
    ⟨fun h => ⟨h.1, h.2⟩, fun h => ⟨h.sum, h.nonneg⟩⟩

/-- A positive `SUM` is what the `unsigned int` holds. -/
theorem totalWages_eq {sum : Count} (h : q.find sumKey = some sum) (h0 : 0 < sum.val) :
    (q.totalWages : Int) = sum.val := by
  rw [totalWages, h]
  show ((sum.val % 2 ^ 32).toNat : Int) = sum.val
  rw [Int.emod_eq_of_lt h0.le sum.property.2, Int.toNat_of_nonneg h0.le]

theorem count_eq_zero {k : Key} (hk : k ∉ q.named) : q.count k = 0 := countIn_eq_zero hk

/-- The counts of the handles that are in a set. -/
theorem sum_count_eq (hV : q.named ⊆ V) : ∑ k ∈ V, q.count k = q.total := by
  refine (sum_countIn q.handleCount V).trans
    (congrArg List.sum (List.map_congr_left fun e he => ?_))
  refine if_pos (hV ?_)
  rw [named, handlesOf, List.mem_toFinset]
  exact List.mem_map_of_mem he

theorem sum_count_le (h : ∀ e ∈ q.stimuli, 0 ≤ e.2.val) (V : Finset Key) :
    ∑ k ∈ V, q.count k ≤ q.total := by
  refine (sum_countIn q.handleCount V).trans_le (List.sum_le_sum fun e he => ?_)
  by_cases hV : e.1 ∈ V
  · rw [if_pos hV]
  · rw [if_neg hV]
    exact h e he

theorem count_nonneg (h : ∀ e ∈ q.stimuli, 0 ≤ e.2.val) (k : Key) : 0 ≤ q.count k := by
  refine List.sum_nonneg fun n hn => ?_
  obtain ⟨e, he, rfl⟩ := List.mem_map.mp hn
  split
  · exact h e he
  · exact le_rfl

theorem sum_boost (V : Finset Key) :
    ∑ k ∈ V, q.boost k = ((∑ k ∈ V, q.count k : Int) : ℚ) / (q.totalWages : ℚ) := by
  simp only [boost, ← sum_div, Int.cast_sum]

theorem Balanced.totalWages_eq (hb : q.Balanced) : (q.totalWages : ℚ) = (q.total : ℚ) := by
  obtain ⟨hsum, h0⟩ := hb
  obtain ⟨sum, hfind, hval⟩ := Option.map_eq_some_iff.mp hsum
  have hw := HandleCount.totalWages_eq hfind (hval.symm ▸ h0)
  rw [hval] at hw
  exact_mod_cast hw

theorem Balanced.total_ne_zero (hb : q.Balanced) : (q.total : ℚ) ≠ 0 :=
  Int.cast_ne_zero.mpr hb.2.ne'

/-- **A balanced request distributes everything**, if all it names is in the set. -/
theorem Balanced.sum_boost (hb : q.Balanced) (hV : q.named ⊆ V) : ∑ k ∈ V, q.boost k = 1 := by
  rw [HandleCount.sum_boost, sum_count_eq hV, hb.totalWages_eq]
  exact div_self hb.total_ne_zero

/-- A covered request distributes at most everything. -/
theorem Covered.sum_boost_le (hc : q.Covered) (V : Finset Key) : ∑ k ∈ V, q.boost k ≤ 1 := by
  obtain ⟨sum, hfind, h0, hle⟩ := hc.sum
  have hw : (q.totalWages : ℚ) = (sum.val : ℚ) := by exact_mod_cast totalWages_eq hfind h0
  have hpos : (0 : ℚ) < sum.val := by exact_mod_cast h0
  rw [HandleCount.sum_boost, hw, div_le_one hpos]
  exact_mod_cast (sum_count_le hc.nonneg V).trans hle

theorem Covered.boost_nonneg (hc : q.Covered) (k : Key) : 0 ≤ q.boost k :=
  div_nonneg (by exact_mod_cast count_nonneg hc.nonneg k) (Nat.cast_nonneg _)

theorem Balanced.valid (hb : q.Balanced) (hn : ∀ k ∈ q.named, IsHandle k) : q.Valid := by
  obtain ⟨sum, hfind, -⟩ := Option.map_eq_some_iff.mp hb.1
  refine ⟨⟨sum, hfind⟩, fun e he hne => hn e.1 ?_⟩
  rw [named, handlesOf, List.mem_toFinset]
  exact List.mem_map_of_mem (List.mem_filter.mpr ⟨he, by simpa using hne⟩)

theorem Balanced.covered (hb : q.Balanced) (h : ∀ e ∈ q.stimuli, 0 ≤ e.2.val) : q.Covered := by
  obtain ⟨sum, hfind, hval⟩ := Option.map_eq_some_iff.mp hb.1
  exact ⟨⟨sum, hfind, hval ▸ hb.2, hval.ge⟩, h⟩

theorem boost_eq_zero {k : Key} (h : q.count k = 0) : q.boost k = 0 := by
  rw [boost, h, Int.cast_zero, zero_div]

end HandleCount

/-! ## A fixed total -/

namespace Request

variable {net : HebbianNetwork} {r : Request}

/-- A request with a list that is not empty, or with a balanced count of nodes for a network
that has an edge. -/
def Acceptable (net : HebbianNetwork) : Request → Prop
  | correlation handleList => handleList ≠ [] ∧ ∀ k ∈ handleList, IsHandle k
  | stimulus handleCount => handleCount.Balanced ∧ handleCount.named ⊆ net.graph.nodes ∧
      ∃ k ∈ net.graph.nodes, (net.graph.neighbors k).Nonempty

/-- Every node that has importance or is counted has an edge to spread it over. -/
def Spreads (net : HebbianNetwork) : Request → Prop
  | correlation _ => True
  | stimulus handleCount => ∀ k ∈ net.graph.nodes,
      net.graph.importance k ≠ 0 ∨ handleCount.count k ≠ 0 → net.graph.Weighted k

/-- No count of a handle is negative. -/
def Nonneg : Request → Prop
  | correlation _ => True
  | stimulus handleCount => ∀ e ∈ handleCount.stimuli, 0 ≤ e.2.val

instance : Decidable (r.Acceptable net) :=
  match r with
  | correlation _ => inferInstanceAs (Decidable (_ ∧ _))
  | stimulus _ => inferInstanceAs (Decidable (_ ∧ _))

instance : Decidable (r.Spreads net) :=
  match r with
  | correlation _ => inferInstanceAs (Decidable True)
  | stimulus _ => inferInstanceAs (Decidable (∀ k ∈ net.graph.nodes, _ → _ ∧ _))

theorem Acceptable.valid (s : net.Sound) (h : r.Acceptable net) : r.Valid := by
  cases r with
  | correlation l => exact h.2
  | stimulus q =>
    exact h.1.valid fun k hk => s.wf.isHandle_of_mem (h.2.1 hk)

theorem Acceptable.covered (ha : r.Acceptable net) (hn : r.Nonneg) {q : HandleCount}
    (hq : r = .stimulus q) : q.Covered := by
  subst hq
  exact ha.1.covered hn

end Request

namespace HebbianNetwork

variable {net net' : HebbianNetwork} {r : Request} {requests : List Request}

theorem Sound.grounded (s : net.Sound) : net.graph.Grounded := fun _ => s.wf.importance_eq_zero

theorem Sound.closed (s : net.Sound) : net.graph.Closed := fun k _ => s.neighbors_subset k

/-- **One acceptable request that spreads keeps the total.** -/
theorem process_total (s : net.Sound) (ha : r.Acceptable net) (hs : r.Spreads net) :
    (net.graph.process r).total = net.graph.total := by
  cases r with
  | correlation l => exact Graph.total_correlation s.grounded l
  | stimulus q =>
    refine Graph.total_stimulate s.closed (ha.1.sum_boost ha.2.1) fun k hk h0 => hs k hk ?_
    -- a node without importance that is not counted sets nothing aside
    by_contra hnone
    push Not at hnone
    refine h0 ?_
    rw [Graph.toSpread, Graph.settled_wagesLedger, hnone.1, HandleCount.boost_eq_zero hnone.2]
    ring

/-- What requests without negative counts keep. -/
structure Fair (net : HebbianNetwork) : Prop where
  sound : net.Sound
  solvent : net.graph.Solvent
  total_le : net.graph.total ≤ 1

theorem solvent_empty : (Graph.empty : Graph Key).Solvent where
  importance _ := le_rfl
  tokens := zero_le_one
  arity_le _ := UInt32.le_refl _

theorem total_empty : (Graph.empty : Graph Key).total = 1 := by
  rw [Graph.total, Graph.held]
  exact zero_add 1

theorem fair_new : new.Fair where
  sound := sound_new
  solvent := by rw [graph_new]; exact solvent_empty
  total_le := by rw [graph_new]; exact total_empty.le

/-- **One covered request keeps the invariant, and the total does not grow.** -/
theorem Fair.process (f : net.Fair) (hr : r.Valid)
    (hc : ∀ q, r = .stimulus q → q.Covered) (hp : net.process r = some net') :
    net'.Fair ∧ net'.graph.total ≤ net.graph.total := by
  obtain ⟨s', hg⟩ := process_eq f.sound hr hp
  cases r with
  | correlation l =>
    have htotal : net'.graph.total = net.graph.total := by
      rw [hg]
      exact Graph.total_correlation f.sound.grounded l
    exact ⟨⟨s', by rw [hg]; exact f.solvent.correlation l, htotal ▸ f.total_le⟩, htotal.le⟩
  | stimulus q =>
    have hcq := hc q rfl
    have htotal : net'.graph.total ≤ net.graph.total := by
      rw [hg]
      exact Graph.total_stimulate_le f.sound.closed (hcq.sum_boost_le _)
        (f.solvent.toDistribute rates_proper)
        fun k _ => (f.solvent.toSpread rates_proper hcq.boost_nonneg k).1
    exact ⟨⟨s', by rw [hg]; exact f.solvent.stimulate rates_proper hcq.boost_nonneg,
      htotal.trans f.total_le⟩, htotal⟩

/-- **One request that does not spread loses tokens.** -/
theorem Fair.total_lt (f : net.Fair) (ha : r.Acceptable net) (hn : r.Nonneg)
    (h1 : net.graph.total = 1) (hs : ¬ r.Spreads net) : (net.graph.process r).total < 1 := by
  cases r with
  | correlation l => exact absurd trivial hs
  | stimulus q =>
    have hc : q.Covered := ha.1.covered hn
    have hpos : 0 < net.graph.total := h1 ▸ zero_lt_one
    have hne : ∃ k ∈ net.graph.nodes,
        (net.graph.importance k ≠ 0 ∨ q.count k ≠ 0) ∧ ¬ net.graph.Weighted k := by
      by_contra hno
      push Not at hno
      exact hs hno
    obtain ⟨k, hk, hkept, hw⟩ := hne
    have hboost : net.graph.importance k ≠ 0 ∨ q.boost k ≠ 0 := by
      obtain ⟨sum, hfind, h0, -⟩ := hc.sum
      have hw : (q.totalWages : ℚ) ≠ 0 := by
        have := HandleCount.totalWages_eq hfind h0
        exact Nat.cast_ne_zero.mpr (by omega)
      exact hkept.imp_right fun h => div_ne_zero (Int.cast_ne_zero.mpr h) hw
    rw [← h1]
    exact Graph.total_stimulate_lt f.sound.closed (ha.1.sum_boost ha.2.1)
      (fun k _ => (f.solvent.toSpread rates_proper hc.boost_nonneg k).1) hk
      (f.solvent.toSpread_ne_zero rates_proper hc.boost_nonneg hpos hboost) hw

/-- Over a run the total stays at 1 only if every request spreads. -/
theorem spreads_of_total : ∀ {requests : List Request} {net net' : HebbianNetwork}, net.Fair →
    AllSteps process (fun net r => r.Acceptable net) net requests →
    (∀ r ∈ requests, r.Nonneg) → run process net requests = some net' →
    net'.graph.total ≤ net.graph.total ∧
      (net'.graph.total = 1 → AllSteps process (fun net r => r.Spreads net) net requests) := by
  intro requests
  induction requests with
  | nil =>
    intro net net' _ _ _ hrun
    obtain rfl := Option.some.inj hrun
    exact ⟨le_rfl, fun _ => trivial⟩
  | cons r rs ih =>
    intro net net' f hok hn hrun
    obtain ⟨net₁, hp, hrest⟩ := run_cons hrun
    have hr : r.Nonneg := hn r List.mem_cons_self
    have hv : r.Valid := hok.1.valid f.sound
    obtain ⟨f₁, hle₁⟩ := f.process hv (fun _ hq => hok.1.covered hr hq) hp
    obtain ⟨hle, hspreads⟩ :=
      ih f₁ (hok.2 net₁ hp) (fun r' hr' => hn r' (List.mem_cons_of_mem _ hr')) hrest
    refine ⟨hle.trans hle₁, fun h1 => ⟨?_, fun net₂ hp₂ => ?_⟩⟩
    · by_contra hs
      have h1' : net.graph.total = 1 := le_antisymm f.total_le (h1 ▸ hle.trans hle₁)
      have hlt := f.total_lt hok.1 hr h1' hs
      rw [← (process_eq f.sound hv hp).2] at hlt
      linarith
    · obtain rfl := Option.some.inj (hp.symm.trans hp₂)
      exact hspreads h1

/--
**The total amount of tokens is fixed**, in every run of acceptable requests whose stimuli
all spread.

Without negative counts these are the only runs that keep it: once tokens are lost they do
not come back.
-/
theorem total_tokens_fixed
    (hok : AllSteps process (fun net r => r.Acceptable net) new requests) :
    ∃ net, run process new requests = some net ∧
      (AllSteps process (fun net r => r.Spreads net) new requests → net.graph.total = 1) ∧
      ((∀ r ∈ requests, r.Nonneg) →
        (net.graph.total = 1 ↔ AllSteps process (fun net r => r.Spreads net) new requests)) := by
  obtain ⟨net, hrun, -⟩ := run_total Sound (fun net r s ha => by
    obtain ⟨net', hp, s', -⟩ := process_simulates s (ha.valid s)
    exact ⟨net', hp, s'⟩) requests new hok sound_new
  have hkeep : AllSteps process (fun net r => r.Spreads net) new requests →
      net.graph.total = 1 := by
    intro hs
    refine (run_invariant (fun net => net.Sound ∧ net.graph.total = 1)
      (fun net r net' hI hk hp => ?_) requests new net (hok.and hs) hrun
      ⟨sound_new, by rw [graph_new]; exact total_empty⟩).2
    obtain ⟨s', hg⟩ := process_eq hI.1 (hk.1.valid hI.1) hp
    exact ⟨s', by rw [hg, process_total hI.1 hk.1 hk.2, hI.2]⟩
  exact ⟨net, hrun, hkeep, fun hn => ⟨(spreads_of_total fair_new hok hn hrun).2, hkeep⟩⟩

/-- `ab`, then a stimulus of `a`, where a letter stands for the handle made of it. -/
theorem total_tokens_fixed_ab : ∃ net, run process new [.correlation [handleOf 97, handleOf 98],
      .stimulus (stimulusOf (handleOf 97) (by decide))] = some net ∧ net.graph.total = 1 := by
  have hok : AllSteps process (fun net r => r.Acceptable net) new
      [.correlation [handleOf 97, handleOf 98],
        .stimulus (stimulusOf (handleOf 97) (by decide))] := by decide +kernel
  obtain ⟨net, hrun, h, -⟩ := total_tokens_fixed hok
  exact ⟨net, hrun, h (by decide +kernel)⟩

/-- `ab` and `c`, then a stimulus of `c`: a node without neighbors spreads to nobody. -/
theorem total_tokens_lost_ab_c :
    AllSteps process (fun net r => r.Acceptable net) new
      [.correlation [handleOf 97, handleOf 98], .correlation [handleOf 99],
        .stimulus (stimulusOf (handleOf 99) (by decide))] ∧
    (run process new [.correlation [handleOf 97, handleOf 98], .correlation [handleOf 99],
        .stimulus (stimulusOf (handleOf 99) (by decide))]).map (fun net => net.graph.total)
      = some (99 / 100) :=
  ⟨by decide +kernel, by decide +kernel⟩

end HebbianNetwork

/-! ## No inflation and no debt -/

namespace Request

variable {net : HebbianNetwork} {r : Request}

/-- A request that may name unknown handles, and a stimulus whose counts its sum covers. -/
def Modest (net : HebbianNetwork) : Request → Prop
  | correlation handleList => ∀ k ∈ handleList, IsHandle k
  | stimulus handleCount => handleCount.Valid ∧ handleCount.Covered ∧ 0 < net.largestArity

instance : Decidable (r.Modest net) :=
  match r with
  | correlation _ => inferInstanceAs (Decidable (∀ _ ∈ _, _))
  | stimulus _ => inferInstanceAs (Decidable (_ ∧ _ ∧ _))

theorem Modest.covered (h : r.Modest net) :
    r.Valid ∧ ∀ q, r = .stimulus q → q.Covered := by
  cases r with
  | correlation l => exact ⟨h, fun q hq => by cases hq⟩
  | stimulus q => exact ⟨h.1, fun q' hq => by cases hq; exact h.2.1⟩

end Request

namespace HebbianNetwork

variable {net : HebbianNetwork} {r : Request} {q : HandleCount} {requests : List Request} {k : Key}

/--
What the second traversal does to the node of a handle, from `net` to `net'`.

The node pays its rent and gets its part of the tokens and the rents. Of the importance it then
has it sets aside what it spreads, at a rate within the bounds.
-/
structure SetsAside (q : HandleCount) (net : HebbianNetwork) (totalToSpread : ImportanceType)
    (data : StimuliData) (net' : HebbianNetwork) (k : Key) : Prop where
  settled : net'.graph.importance k + net'.graph.stimuli k
    = net.graph.importance k - AttentionBrokerServer.rentRate * net.graph.importance k
      + q.boost k * totalToSpread
  stimuli : net'.graph.stimuli k = data.spreadingRate (net.graph.arity k)
    * (net'.graph.importance k + net'.graph.stimuli k)
  lowerbound : AttentionBrokerServer.spreadingRateLowerbound
    ≤ data.spreadingRate (net.graph.arity k)
  upperbound : data.spreadingRate (net.graph.arity k)
    ≤ AttentionBrokerServer.spreadingRateUpperbound

/-- A stimulus completes. Every node sets aside a part of its importance within the bounds, and
what is set aside is what is spread. -/
def SpreadsWithinBounds (net : HebbianNetwork) : Request → Prop
  | .correlation _ => True
  | .stimulus q => ∃ data₁ data₂ net₂ net₃ data₄ net₄,
      collectRentPhase net = .ok data₁ net ∧
      distributeWagesPhase q data₁ net = .ok data₂ net₂ ∧
      consolidatePhase data₂ net₂ = .ok data₂ net₃ ∧
      spreadPhase data₂ net₃ = .ok data₄ net₄ ∧
      net.process (.stimulus q) = some net₄ ∧
      (∀ k ∈ net.graph.nodes,
        SetsAside q net (net.tokensToDistribute + data₁.totalRent) data₂ net₃ k) ∧
      net₄.graph = net₃.graph.spread

/-- What nobody loses: no debt, and no more tokens than there were. -/
structure NoInflationNoDebt (net : HebbianNetwork) : Prop where
  importance : ∀ k a, net.nodeRef k = some a → 0 ≤ (net.node a).importance
  total : net.graph.total ≤ 1

theorem Fair.noInflationNoDebt (f : net.Fair) : net.NoInflationNoDebt where
  importance k a ha := by
    rw [← graph_importance ha]
    exact f.solvent.importance k
  total := f.total_le

/-- The second traversal of a stimulus that runs alone, at a node. -/
theorem Fair.setsAside (f : net.Fair) {data : StimuliData} {net' : HebbianNetwork} (wf : data.Wf)
    (hledger : data.ledger = net.graph.wagesLedger rates q.named q.boost)
    (hgraph : net'.graph = net.graph.alienateTokens.consolidate rates data.ledger)
    (hk : k ∈ net.graph.nodes) :
    SetsAside q net (net.graph.toDistribute rates) data net' k := by
  have hrate : data.spreadingRate (net.graph.arity k)
      = rates.spreading net.graph.largestArity (net.graph.arity k) := by
    have harity : data.largestArity = net.graph.largestArity :=
      congrArg Ledger.largestArity hledger
    rw [wf.spreadingRate, harity]
  have himp : net'.graph.importance k
      = net.graph.alienateTokens.settled data.ledger k
        - net.graph.alienateTokens.toSpread rates data.ledger k := by
    rw [hgraph]
    exact if_pos hk
  have hstim : net'.graph.stimuli k = net.graph.alienateTokens.toSpread rates data.ledger k := by
    rw [hgraph]
    exact if_pos hk
  have hsettled : net'.graph.importance k + net'.graph.stimuli k
      = net.graph.alienateTokens.settled data.ledger k := by
    rw [himp, hstim, sub_add_cancel]
  obtain ⟨hlo, hhi⟩ := rates_proper.spreading_bounds (f.solvent.arity_le k)
  constructor
  · rw [hsettled, hledger]
    show _ - _ + (0 + _) = _
    rw [zero_add]
    rfl
  · rw [hsettled, hstim, wf.spreadingRate, mul_comm]
    rfl
  · rw [hrate]
    exact hlo
  · rw [hrate]
    exact hhi.trans (add_sub_cancel _ _).le

/-- **A stimulus on a fair network spreads within the bounds.** -/
theorem Fair.spreadsWithinBounds (f : net.Fair) (hr : r.Valid) : SpreadsWithinBounds net r := by
  cases r with
  | correlation l => trivial
  | stimulus q =>
    obtain ⟨data₁, data₂, data₄, net₂, net₃, net₄, h⟩ := exists_phases f.sound hr
    have htotal : net.tokensToDistribute + data₁.totalRent = net.graph.toDistribute rates :=
      congrArg (net.tokensToDistribute + ·) (congrArg Ledger.totalRent h.ledger₁)
    refine ⟨data₁, data₂, net₂, net₃, data₄, net₄, h.collectRent, h.distributeWages, h.consolidate,
      h.spread, process_of_ok h.call, fun k hk => ?_, h.graph₄⟩
    rw [htotal]
    exact f.setsAside h.wf h.ledger₂ h.graph₃ hk

/--
**No inflation and no debt**, in every run of modest requests.

The run completes, and every stimulus of it spreads within the bounds.
-/
theorem no_inflation_no_debt
    (hok : AllSteps process (fun net r => r.Modest net) new requests) :
    (∃ net, run process new requests = some net ∧ net.NoInflationNoDebt) ∧
      AllSteps process SpreadsWithinBounds new requests := by
  have hstep : ∀ (net : HebbianNetwork) (r : Request), net.Fair → r.Modest net →
      ∃ net', net.process r = some net' ∧ net'.Fair := by
    intro net r f hm
    obtain ⟨hv, hc⟩ := hm.covered
    obtain ⟨net', hp, -⟩ := process_simulates f.sound hv
    exact ⟨net', hp, (f.process hv hc hp).1⟩
  constructor
  · obtain ⟨net, hrun, f⟩ := run_total Fair hstep requests new hok fair_new
    exact ⟨net, hrun, f.noInflationNoDebt⟩
  · have hboth : AllSteps process (fun net r => r.Modest net ∧ SpreadsWithinBounds net r) new
        requests := by
      refine (AllSteps.congr Fair (fun net r f => ?_) (fun net r net' f hm hp => ?_) requests new
        fair_new).mp hok
      · exact ⟨fun hm => ⟨hm, f.spreadsWithinBounds hm.covered.1⟩, fun h => h.1⟩
      · exact (f.process hm.covered.1 hm.covered.2 hp).1
    exact hboth.mono fun _ _ h => h.2

/-- `ab`, then a stimulus of `a`, then one of the unknown `c`. -/
theorem no_inflation_no_debt_ab_c :
    (∃ net, run process new [.correlation [handleOf 97, handleOf 98], .stimulus stimulusOfA,
      .stimulus (stimulusOf (handleOf 99) (by decide))] = some net ∧ net.NoInflationNoDebt) ∧
    AllSteps process SpreadsWithinBounds new [.correlation [handleOf 97, handleOf 98],
      .stimulus stimulusOfA, .stimulus (stimulusOf (handleOf 99) (by decide))] :=
  no_inflation_no_debt (by decide +kernel)

end HebbianNetwork

end AttentionBroker
