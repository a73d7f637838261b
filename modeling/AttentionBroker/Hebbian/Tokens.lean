import Mathlib.Algebra.Order.Ring.Rat
import Mathlib.Tactic.Linarith
import Mathlib.Tactic.Ring
import AttentionBroker.Hebbian.Graph

/-!
# Where the tokens of a graph are

`total` is what the documentation of `TokenSpreader` calls the total amount of tokens, and
`held` the importance of all nodes. Each operation of a stimulus is an equation between
`held` before and after. What is spread arrives as long as every node that sets something
aside has weights to divide it by (`held_spread`). It never grows (`held_spread_le`).
-/

namespace AttentionBroker

open Infra Finset

/-- Rates that leave something of every amount they are applied to. -/
structure Rates.Proper (r : Rates) : Prop where
  rent_pos : 0 < r.rent
  rent_lt : r.rent < 1
  lowerbound_pos : 0 < r.lowerbound
  rangeSize_nonneg : 0 ≤ r.rangeSize
  upperbound_le : r.lowerbound + r.rangeSize ≤ 1

/-- **The spreading rate is within its bounds**, for an arity up to the largest. -/
theorem Rates.Proper.spreading_bounds {r : Rates} (hr : r.Proper)
    {largestArity arity : UInt32} (hle : arity ≤ largestArity) :
    r.lowerbound ≤ r.spreading largestArity arity ∧
      r.spreading largestArity arity ≤ r.lowerbound + r.rangeSize := by
  have hle' : (arity.toNat : ℚ) ≤ (largestArity.toNat : ℚ) :=
    Nat.cast_le.mpr (UInt32.le_iff_toNat_le.mp hle)
  have h0 : (0 : ℚ) ≤ (arity.toNat : ℚ) := Nat.cast_nonneg _
  have hratio : (arity.toNat : ℚ) / (largestArity.toNat : ℚ) ≤ 1 :=
    div_le_one_of_le₀ hle' (h0.trans hle')
  have hratio0 : 0 ≤ (arity.toNat : ℚ) / (largestArity.toNat : ℚ) :=
    div_nonneg h0 (h0.trans hle')
  unfold Rates.spreading
  have hmul := mul_le_mul_of_nonneg_left hratio hr.rangeSize_nonneg
  have hmul0 := mul_nonneg hr.rangeSize_nonneg hratio0
  constructor <;> linarith

/-- **Only an arity up to the largest keeps the rate within its upper bound.** -/
theorem Rates.spreading_le_iff {r : Rates} (hr : 0 < r.rangeSize) {largestArity arity : UInt32}
    (hpos : 0 < largestArity) :
    r.spreading largestArity arity ≤ r.lowerbound + r.rangeSize ↔ arity ≤ largestArity := by
  have hpos' : (0 : ℚ) < (largestArity.toNat : ℚ) :=
    Nat.cast_pos.mpr (UInt32.lt_iff_toNat_lt.mp hpos)
  rw [Rates.spreading, add_le_add_iff_left, mul_le_iff_le_one_right hr, div_le_one hpos',
    Nat.cast_le, ← UInt32.le_iff_toNat_le]

/-- The rate is never below its lower bound. -/
theorem Rates.lowerbound_le {r : Rates} (hr : r.Proper) (largestArity arity : UInt32) :
    r.lowerbound ≤ r.spreading largestArity arity :=
  le_add_of_nonneg_right (mul_nonneg hr.rangeSize_nonneg
    (div_nonneg (Nat.cast_nonneg _) (Nat.cast_nonneg _)))

theorem toNat_cast_eq_zero {c : UInt32} : (c.toNat : ℚ) = 0 ↔ c = 0 :=
  Nat.cast_eq_zero.trans (UInt32.toNat_inj (b := 0))

namespace Graph

variable {κ : Type*} [DecidableEq κ] {g : Graph κ} {l : Ledger κ} {r : Rates} {k : κ}

/-- The importance of all nodes. -/
def held (g : Graph κ) : ℚ := ∑ k ∈ g.nodes, g.importance k

/-- The importance of all nodes and the tokens to distribute. -/
def total (g : Graph κ) : ℚ := g.held + g.tokens

/-- What the nodes have set aside. -/
def setAside (g : Graph κ) : ℚ := ∑ k ∈ g.nodes, g.stimuli k

/-- Only nodes have importance. -/
def Grounded (g : Graph κ) : Prop := ∀ k, k ∉ g.nodes → g.importance k = 0

/-- The neighbors of every node are nodes. -/
def Closed (g : Graph κ) : Prop := ∀ k ∈ g.nodes, g.neighbors k ⊆ g.nodes

/-- A counted edge leaves the node, and its own counter does not stand at 0. -/
def Weighted (g : Graph κ) (k : κ) : Prop :=
  g.count k ≠ 0 ∧ ∃ h ∈ g.neighbors k, g.edgeCount k h ≠ 0

/-! ## Correlation -/

/-- What a single addition keeps, a correlation keeps. -/
theorem correlation_induct [LT κ] [DecidableLT κ] {P : Graph κ → Prop}
    (hnode : ∀ g k, P g → P (addNode g k)) (hedge : ∀ g p, P g → P (addEdge g p)) (l : List κ)
    (hg : P g) : P (g.correlation l) :=
  List.foldlRecOn (edgePairs l) addEdge
    (List.foldlRecOn l addNode hg fun g hg k _ => hnode g k hg) fun g hg p _ => hedge g p hg

section correlation

variable [LT κ] [DecidableLT κ] (g : Graph κ) (l : List κ)

@[simp] theorem correlation_importance : (g.correlation l).importance = g.importance :=
  correlation_induct (P := fun g' => g'.importance = g.importance) (fun _ _ h => h)
    (fun _ _ h => by rw [← h]; simp [addEdge, insertEdge]) l rfl

@[simp] theorem correlation_stimuli : (g.correlation l).stimuli = g.stimuli :=
  correlation_induct (P := fun g' => g'.stimuli = g.stimuli) (fun _ _ h => h)
    (fun _ _ h => by rw [← h]; simp [addEdge, insertEdge]) l rfl

@[simp] theorem correlation_tokens : (g.correlation l).tokens = g.tokens :=
  correlation_induct (P := fun g' => g'.tokens = g.tokens) (fun _ _ h => h)
    (fun _ _ h => by rw [← h]; simp [addEdge, insertEdge]) l rfl

theorem mem_correlation_nodes {g : Graph κ} {l : List κ} :
    k ∈ (g.correlation l).nodes ↔ k ∈ g.nodes ∨ k ∈ l := by
  rw [correlation, foldl_addEdge_nodes, mem_foldl_addNode]

/-- **Correlation moves no tokens.** -/
theorem total_correlation {g : Graph κ} (hg : g.Grounded) (l : List κ) :
    (g.correlation l).total = g.total := by
  have hheld : (g.correlation l).held = g.held := by
    rw [held, correlation_importance]
    refine (sum_subset (fun k hk => mem_correlation_nodes.mpr (.inl hk)) fun k _ hk => ?_).symm
    exact hg k hk
  rw [total, hheld, correlation_tokens, total]

end correlation

/-! ## Consolidation -/

theorem held_consolidate : (g.consolidate r l).held
    = g.held - ∑ k ∈ g.nodes, l.rent k + ∑ k ∈ g.nodes, l.wages k
      - ∑ k ∈ g.nodes, g.toSpread r l k := by
  have hsum : (g.consolidate r l).held
      = ∑ k ∈ g.nodes, (g.settled l k - g.toSpread r l k) :=
    sum_congr rfl fun k hk => if_pos hk
  rw [hsum, sum_sub_distrib]
  simp only [settled, sum_add_distrib, sum_sub_distrib]
  rfl

theorem setAside_consolidate :
    (g.consolidate r l).setAside = ∑ k ∈ g.nodes, g.toSpread r l k :=
  sum_congr rfl fun _ hk => if_pos hk

/-- Consolidation takes the rents from the nodes and adds the wages. -/
theorem held_add_setAside_consolidate : (g.consolidate r l).held + (g.consolidate r l).setAside
    = g.held - ∑ k ∈ g.nodes, l.rent k + ∑ k ∈ g.nodes, l.wages k := by
  rw [held_consolidate, setAside_consolidate, sub_add_cancel]

/-! ## Spreading -/

omit [DecidableEq κ] in
theorem weight_nonneg (a b : κ) : 0 ≤ g.weight a b :=
  div_nonneg (Nat.cast_nonneg _) (Nat.cast_nonneg _)

omit [DecidableEq κ] in
theorem weight_eq_zero {a b : κ} : g.weight a b = 0 ↔ g.edgeCount a b = 0 ∨ g.count a = 0 := by
  rw [weight, div_eq_zero_iff, toNat_cast_eq_zero, toNat_cast_eq_zero]

omit [DecidableEq κ] in
/-- There is something to divide by where a counted edge leaves. -/
theorem sumWeights_ne_zero : g.sumWeights k ≠ 0 ↔ g.Weighted k := by
  rw [sumWeights, Ne, sum_eq_zero_iff_of_nonneg fun h _ => weight_nonneg k h]
  simp only [weight_eq_zero, Weighted]
  push Not
  constructor
  · rintro ⟨h, hh, he, hc⟩
    exact ⟨hc, h, hh, he⟩
  · rintro ⟨hc, h, hh, he⟩
    exact ⟨h, hh, he, hc⟩

/-- What arrives is what every node divides among its neighbors. -/
theorem held_spread_eq (hg : g.Closed) : g.spread.held
    = g.held + ∑ w ∈ g.nodes, ∑ v ∈ g.neighbors w, g.share w v (g.stimuli w) := by
  have hsum : g.spread.held = ∑ v ∈ g.nodes, (g.importance v
      + ∑ w ∈ g.nodes with v ∈ g.neighbors w, g.share w v (g.stimuli w)) := rfl
  rw [hsum, sum_add_distrib, sum_inflow hg fun w v => g.share w v (g.stimuli w)]
  rfl

/-- **Everything set aside arrives**, if there are weights to divide it by. -/
theorem held_spread (hg : g.Closed)
    (hw : ∀ k ∈ g.nodes, g.stimuli k ≠ 0 → g.Weighted k) :
    g.spread.held = g.held + g.setAside := by
  rw [held_spread_eq hg, setAside]
  refine congrArg _ (sum_congr rfl fun k hk => ?_)
  by_cases h0 : g.stimuli k = 0
  · simp [share, h0]
  · exact sum_share (sumWeights_ne_zero.mpr (hw k hk h0)) _

/-- No more arrives than was set aside. -/
theorem held_spread_le (hg : g.Closed) (hs : ∀ k ∈ g.nodes, 0 ≤ g.stimuli k) :
    g.spread.held ≤ g.held + g.setAside := by
  rw [held_spread_eq hg, setAside]
  have hle : ∑ w ∈ g.nodes, ∑ v ∈ g.neighbors w, g.share w v (g.stimuli w)
      ≤ ∑ w ∈ g.nodes, g.stimuli w :=
    sum_le_sum fun w hw => sum_share_le _ _ (hs w hw)
  linarith

/-- What a node sets aside without weights is lost. -/
theorem held_spread_lt (hg : g.Closed) (hs : ∀ k ∈ g.nodes, 0 ≤ g.stimuli k) (hk : k ∈ g.nodes)
    (h0 : g.stimuli k ≠ 0) (hw : ¬ g.Weighted k) : g.spread.held < g.held + g.setAside := by
  have hsum : g.sumWeights k = 0 := not_not.mp fun h => hw (sumWeights_ne_zero.mp h)
  have hnone : ∑ v ∈ g.neighbors k, g.share k v (g.stimuli k) = 0 :=
    sum_eq_zero fun v _ => by rw [share, hsum, div_zero, zero_mul]
  have hlt : ∑ w ∈ g.nodes, ∑ v ∈ g.neighbors w, g.share w v (g.stimuli w)
      < ∑ w ∈ g.nodes, g.stimuli w := by
    refine sum_lt_sum (fun w hw => sum_share_le _ _ (hs w hw)) ⟨k, hk, ?_⟩
    rw [hnone]
    exact lt_of_le_of_ne (hs k hk) (Ne.symm h0)
  rw [held_spread_eq hg, setAside]
  linarith

/-! ## A whole stimulus -/

section stimulate

variable {named : Finset κ} {boost : κ → ℚ}

/-- The ledger of a stimulus that runs alone, when it consolidates. -/
def wagesLedger (r : Rates) (g : Graph κ) (named : Finset κ) (boost : κ → ℚ) : Ledger κ :=
  g.distributeWages named boost (g.collectRent r)

/-- The graph of a stimulus that runs alone, before it spreads. -/
def consolidated (r : Rates) (g : Graph κ) (named : Finset κ) (boost : κ → ℚ) : Graph κ :=
  g.alienateTokens.consolidate r (g.wagesLedger r named boost)

/-- The tokens a stimulus has to distribute. -/
def toDistribute (r : Rates) (g : Graph κ) : ℚ := g.tokens + ∑ k ∈ g.nodes, r.rent * g.importance k

theorem consolidated_stimuli (hk : k ∈ g.nodes) :
    (g.consolidated r named boost).stimuli k = g.toSpread r (g.wagesLedger r named boost) k :=
  if_pos hk

/-- Rents and wages are all that consolidation adds and takes away. -/
theorem held_consolidated :
    (g.consolidated r named boost).held + (g.consolidated r named boost).setAside
      = g.held - ∑ k ∈ g.nodes, r.rent * g.importance k
        + (∑ k ∈ g.nodes, boost k) * g.toDistribute r := by
  have hsum : (g.consolidated r named boost).held + (g.consolidated r named boost).setAside
      = g.alienateTokens.held - ∑ k ∈ g.nodes, r.rent * g.importance k
        + ∑ k ∈ g.nodes, (0 + boost k * g.toDistribute r) := held_add_setAside_consolidate
  have halienate : g.alienateTokens.held = g.held := rfl
  rw [hsum, halienate, sum_mul]
  simp only [zero_add]

theorem total_stimulate_eq :
    (g.stimulate r named boost).total = (g.consolidated r named boost).spread.held :=
  add_zero _

/-- **A stimulus keeps the total**, if its boosts add up to 1 and all that is set aside is
divided. -/
theorem total_stimulate (hg : g.Closed) (hb : ∑ k ∈ g.nodes, boost k = 1)
    (hw : ∀ k ∈ g.nodes, g.toSpread r (g.wagesLedger r named boost) k ≠ 0 → g.Weighted k) :
    (g.stimulate r named boost).total = g.total := by
  have hspread : (g.consolidated r named boost).spread.held
      = (g.consolidated r named boost).held + (g.consolidated r named boost).setAside :=
    held_spread hg fun k hk hs => hw k hk (by rwa [consolidated_stimuli (g := g) hk] at hs)
  rw [total_stimulate_eq, hspread, held_consolidated, hb, total, toDistribute]
  ring

/-- **A stimulus does not raise the total**, if its boosts add up to at most 1 and no node
sets aside less than nothing. -/
theorem total_stimulate_le (hg : g.Closed) (hb : ∑ k ∈ g.nodes, boost k ≤ 1)
    (ht : 0 ≤ g.toDistribute r)
    (hs : ∀ k ∈ g.nodes, 0 ≤ g.toSpread r (g.wagesLedger r named boost) k) :
    (g.stimulate r named boost).total ≤ g.total := by
  have hspread : (g.consolidated r named boost).spread.held
      ≤ (g.consolidated r named boost).held + (g.consolidated r named boost).setAside :=
    held_spread_le hg fun k hk => by rw [consolidated_stimuli (g := g) hk]; exact hs k hk
  rw [held_consolidated] at hspread
  have hle := mul_le_mul_of_nonneg_right hb ht
  rw [total_stimulate_eq, total]
  unfold toDistribute at hspread hle
  linarith

/-- **A stimulus lowers the total**, if a node sets something aside that it has no weights to
divide by. -/
theorem total_stimulate_lt (hg : g.Closed) (hb : ∑ k ∈ g.nodes, boost k = 1)
    (hs : ∀ k ∈ g.nodes, 0 ≤ g.toSpread r (g.wagesLedger r named boost) k) (hk : k ∈ g.nodes)
    (h0 : g.toSpread r (g.wagesLedger r named boost) k ≠ 0) (hw : ¬ g.Weighted k) :
    (g.stimulate r named boost).total < g.total := by
  have hspread : (g.consolidated r named boost).spread.held
      < (g.consolidated r named boost).held + (g.consolidated r named boost).setAside :=
    held_spread_lt hg (fun k hk => by rw [consolidated_stimuli (g := g) hk]; exact hs k hk) hk
      (by rwa [consolidated_stimuli (g := g) hk]) hw
  rw [held_consolidated, hb] at hspread
  rw [total_stimulate_eq, total]
  unfold toDistribute at hspread
  linarith

end stimulate

/-! ## No debt -/

/-- Nobody owes tokens, and no arity is above the largest. -/
structure Solvent (g : Graph κ) : Prop where
  importance : ∀ k, 0 ≤ g.importance k
  tokens : 0 ≤ g.tokens
  arity_le : ∀ k, g.arity k ≤ g.largestArity

omit [DecidableEq κ] in
theorem Solvent.toDistribute (s : g.Solvent) (hr : r.Proper) : 0 ≤ g.toDistribute r :=
  add_nonneg s.tokens (sum_nonneg fun k _ => mul_nonneg hr.rent_pos.le (s.importance k))

omit [DecidableEq κ] in
/-- As long as there are tokens, there are some to distribute. -/
theorem Solvent.toDistribute_pos (s : g.Solvent) (hr : r.Proper) (h : 0 < g.total) :
    0 < g.toDistribute r := by
  have hsum : g.toDistribute r = g.tokens + r.rent * g.held := by
    rw [Graph.toDistribute, held, mul_sum]
  have hle : r.rent * g.total ≤ g.tokens + r.rent * g.held := by
    rw [total, mul_add, add_comm]
    exact add_le_add_left (mul_le_of_le_one_left s.tokens hr.rent_lt.le) _
  rw [hsum]
  exact (mul_pos hr.rent_pos h).trans_le hle

omit [DecidableEq κ] in
theorem share_nonneg {a b : κ} {x : ℚ} (hx : 0 ≤ x) : 0 ≤ g.share a b x :=
  mul_nonneg (div_nonneg (weight_nonneg a b) (sum_nonneg fun b _ => weight_nonneg a b)) hx

theorem Solvent.correlation [LT κ] [DecidableLT κ] (s : g.Solvent) (l : List κ) :
    (g.correlation l).Solvent where
  importance := by rw [correlation_importance]; exact s.importance
  tokens := by rw [correlation_tokens]; exact s.tokens
  arity_le := correlation_induct (P := fun g => ∀ k, g.arity k ≤ g.largestArity)
    (fun _ _ h => h) (fun _ _ h => addEdge_arity_le h) l s.arity_le

section stimulate

variable {named : Finset κ} {boost : κ → ℚ}

/-- What is left of the importance after rent, and the wages. -/
theorem settled_wagesLedger (k : κ) : g.settled (g.wagesLedger r named boost) k
    = (1 - r.rent) * g.importance k + boost k * g.toDistribute r := by
  have hdef : g.settled (g.wagesLedger r named boost) k
      = g.importance k - r.rent * g.importance k + (0 + boost k * g.toDistribute r) := rfl
  rw [hdef]
  ring

theorem Solvent.settled (s : g.Solvent) (hr : r.Proper) (hb : ∀ k, 0 ≤ boost k) (k : κ) :
    0 ≤ g.settled (g.wagesLedger r named boost) k := by
  rw [settled_wagesLedger]
  exact add_nonneg (mul_nonneg (sub_nonneg.mpr hr.rent_lt.le) (s.importance k))
    (mul_nonneg (hb k) (s.toDistribute hr))

theorem Solvent.toSpread (s : g.Solvent) (hr : r.Proper) (hb : ∀ k, 0 ≤ boost k) (k : κ) :
    0 ≤ g.toSpread r (g.wagesLedger r named boost) k ∧
      g.toSpread r (g.wagesLedger r named boost) k
        ≤ g.settled (g.wagesLedger r named boost) k := by
  have hsettled : 0 ≤ g.settled (g.wagesLedger r named boost) k := s.settled hr hb k
  obtain ⟨hlo, hhi⟩ := hr.spreading_bounds (s.arity_le k)
  have hrate0 := hr.lowerbound_pos.le.trans hlo
  have hrate1 := hhi.trans hr.upperbound_le
  exact ⟨mul_nonneg hsettled hrate0, mul_le_of_le_one_right hsettled hrate1⟩

/-- A node that has importance or is boosted sets something aside. -/
theorem Solvent.toSpread_ne_zero (s : g.Solvent) (hr : r.Proper) (hb : ∀ k, 0 ≤ boost k)
    (h : 0 < g.total) (hk : g.importance k ≠ 0 ∨ boost k ≠ 0) :
    g.toSpread r (g.wagesLedger r named boost) k ≠ 0 := by
  have hrate : 0 < r.spreading g.largestArity (g.arity k) :=
    hr.lowerbound_pos.trans_le (hr.spreading_bounds (s.arity_le k)).1
  have hkept : 0 ≤ (1 - r.rent) * g.importance k :=
    mul_nonneg (sub_nonneg.mpr hr.rent_lt.le) (s.importance k)
  have hwages : 0 ≤ boost k * g.toDistribute r := mul_nonneg (hb k) (s.toDistribute hr)
  refine (mul_pos ?_ hrate).ne'
  rw [settled_wagesLedger]
  rcases hk with hk | hk
  · have := mul_pos (sub_pos.mpr hr.rent_lt) (lt_of_le_of_ne (s.importance k) hk.symm)
    linarith
  · have := mul_pos (lt_of_le_of_ne (hb k) hk.symm) (s.toDistribute_pos hr h)
    linarith

/-- **A stimulus without negative boosts leaves no debt.** -/
theorem Solvent.stimulate (s : g.Solvent) (hr : r.Proper) (hb : ∀ k, 0 ≤ boost k) :
    (g.stimulate r named boost).Solvent where
  tokens := le_rfl
  arity_le := s.arity_le
  importance k := by
    have hspread : (g.stimulate r named boost).importance k
        = (g.consolidated r named boost).importance k
          + ∑ w ∈ g.nodes with k ∈ g.neighbors w,
              (g.consolidated r named boost).share w k
                ((g.consolidated r named boost).stimuli w) := rfl
    rw [hspread]
    refine add_nonneg ?_ (sum_nonneg fun w hw => share_nonneg ?_)
    · have himp : (g.consolidated r named boost).importance k
          = if k ∈ g.nodes then g.settled (g.wagesLedger r named boost) k
              - g.toSpread r (g.wagesLedger r named boost) k else g.importance k := rfl
      rw [himp]
      split
      · exact sub_nonneg.mpr (s.toSpread hr hb k).2
      · exact s.importance k
    · rw [consolidated_stimuli (g := g) (mem_filter.mp hw).1]
      exact (s.toSpread hr hb w).1

end stimulate

end Graph

end AttentionBroker
