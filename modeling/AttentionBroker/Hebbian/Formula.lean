import Mathlib.Tactic.FieldSimp
import AttentionBroker.Hebbian.Conservation
import AttentionBroker.Hebbian.Counting

/-!
# The reference formula of a stimulus

`after` computes every importance from the importances before the call, without a traversal and
without data that waits. `spreadStimuli_formula` says that a stimulus is this formula, whatever
the order in which the request and the tries are gone through.

The loops divide counts by the count of the source and these ratios by their sum. The count of the
source cancels, because a node with an edge has been counted.
-/

namespace AttentionBroker

open Infra Finset TokenSpreader

/-! ## The formula -/

namespace Formula

variable (g : Graph Key) (q : HandleCount) (v w : Key)

/-- The count of a handle, 0 for one that is not named. -/
def count : ℚ := ((q.find v).map fun c => (c.val : ℚ)).getD 0

/-- `SUM`. -/
def sum : ℚ := ((q.find sumKey).map fun c => (c.val : ℚ)).getD 0

/-- What there is to distribute. -/
def total : ℚ := g.tokens + ∑ v ∈ g.nodes, AttentionBrokerServer.rentRate * g.importance v

/-- The wage of a node. -/
def wage : ℚ := count q v * total g / sum q

/-- The importance of a node after rent and wage. -/
def settled : ℚ := g.importance v - AttentionBrokerServer.rentRate * g.importance v + wage g q v

/-- What a node spreads. -/
def spread : ℚ :=
  settled g q v * (AttentionBrokerServer.spreadingRateLowerbound +
    (AttentionBrokerServer.spreadingRateUpperbound - AttentionBrokerServer.spreadingRateLowerbound)
      * ((g.arity v).toNat : ℚ) / (g.largestArity.toNat : ℚ))

/-- The counts of all edges that leave a node. -/
def outgoing : ℚ := ∑ x ∈ g.neighbors w, ((g.edgeCount w x).toNat : ℚ)

/-- What a node receives. -/
def received : ℚ := ∑ w ∈ g.nodes with v ∈ g.neighbors w,
  spread g q w * ((g.edgeCount w v).toNat : ℚ) / outgoing g w

/-- The graph after the call. -/
def after : Graph Key :=
  { g with
    importance := fun v =>
      if v ∈ g.nodes then settled g q v - spread g q v + received g q v else g.importance v
    stimuli := fun _ => 0
    tokens := 0 }

/-- Nothing is divided by zero, in the formula or in the loops. -/
structure Defined : Prop where
  sum : sum q ≠ 0
  largestArity : g.largestArity ≠ 0
  count : ∀ w v, v ∈ g.neighbors w → g.count w ≠ 0
  outgoing : ∀ w v, v ∈ g.neighbors w → outgoing g w ≠ 0

end Formula

/-! ## The entries of a request in another order -/

namespace HandleCount

variable {q q' : HandleCount} {k : Key} {c : Count}

theorem find_eq_some : q.find k = some c ↔ (k, c) ∈ q.handleCount := by
  obtain ⟨l, hnd⟩ := q
  show l.lookup k = some c ↔ (k, c) ∈ l
  induction l with
  | nil => simp
  | cons e l ih =>
    rw [List.map_cons, List.nodup_cons] at hnd
    rw [List.lookup_cons, List.mem_cons]
    by_cases hk : k = e.1
    · subst hk
      have hnot : (e.1, c) ∉ l := fun h => hnd.1 (List.mem_map.mpr ⟨_, h, rfl⟩)
      simp only [beq_self_eq_true, Option.some.injEq, hnot, or_false]
      exact ⟨fun h => by rw [← h], fun h => (congrArg Prod.snd h).symm⟩
    · have hne : (k, c) ≠ e := fun h => hk (congrArg Prod.fst h)
      have hbeq : (k == e.1) = false := by simpa using hk
      rw [hbeq, ih hnd.2]
      simp [hne]

theorem find_perm (h : q'.handleCount.Perm q.handleCount) : q'.find = q.find := by
  funext k
  exact Option.ext fun c => by rw [find_eq_some, find_eq_some, h.mem_iff]

theorem count_perm (h : q'.handleCount.Perm q.handleCount) : q'.count = q.count := by
  funext k
  exact ((h.filter _).map _).sum_eq

theorem named_perm (h : q'.handleCount.Perm q.handleCount) : q'.named = q.named :=
  List.toFinset_eq_of_perm _ _ ((h.filter _).map _)

theorem boost_perm (h : q'.handleCount.Perm q.handleCount) : q'.boost = q.boost := by
  funext k
  rw [boost, boost, count_perm h, totalWages, totalWages, find_perm h]

theorem valid_perm (h : q'.handleCount.Perm q.handleCount) (hq : q.Valid) : q'.Valid where
  sum := by rw [find_perm h]; exact hq.sum
  handles := fun e he => hq.handles e (h.mem_iff.mp he)

/-- What the loop of `distribute_wages` counts for a handle is its entry. -/
theorem count_eq (hk : k ≠ sumKey) : (q.count k : ℚ) = Formula.count q k := by
  have hcount : ∀ (l : List (Key × Count)), (l.map Prod.fst).Nodup →
      countIn l k = ((l.lookup k).map Subtype.val).getD 0 := by
    intro l
    induction l with
    | nil => intro _; rfl
    | cons e l ih =>
      intro hnd
      rw [List.map_cons, List.nodup_cons] at hnd
      rw [countIn_cons, List.lookup_cons]
      by_cases hke : k = e.1
      · subst hke
        have hzero : countIn l e.1 = 0 := by
          refine countIn_eq_zero fun hmem => hnd.1 ?_
          rw [handlesOf, List.mem_toFinset] at hmem
          exact ((List.filter_sublist (l := l)).map Prod.fst).subset hmem
        simp [hzero, hk]
      · have hbeq : (k == e.1) = false := by simpa using hke
        rw [hbeq, ih hnd.2]
        simp [Ne.symm hke]
  rw [HandleCount.count, hcount q.handleCount q.nodup, Formula.count, HandleCount.find]
  cases q.handleCount.lookup k <;> rfl

end HandleCount

/-! ## The loops compute the formula -/

namespace Formula

variable {g : Graph Key} {q : HandleCount} {v w : Key}

/-- **The count of the source cancels.** -/
theorem share_eq (h : g.count w ≠ 0) (s : ℚ) :
    g.share w v s = s * ((g.edgeCount w v).toNat : ℚ) / outgoing g w := by
  have hc : ((g.count w).toNat : ℚ) ≠ 0 := toNat_cast_eq_zero.not.mpr h
  have hsum : g.sumWeights w = outgoing g w / ((g.count w).toNat : ℚ) := by
    unfold Graph.sumWeights Graph.weight outgoing
    rw [sum_div]
  unfold Graph.share
  rw [hsum, Graph.weight, div_div_div_cancel_right₀ hc, mul_comm, mul_div_assoc]

/-- The ledger notes the wages of the formula. -/
theorem settled_eq (hsum : (q.totalWages : ℚ) = sum q) (hv : v ≠ sumKey) :
    g.alienateTokens.settled (g.wagesLedger rates q.named q.boost) v = settled g q v := by
  have hwage : q.boost v * (g.tokens + ∑ k ∈ g.nodes, rates.rent * g.importance k)
      = wage g q v := by
    rw [HandleCount.boost, HandleCount.count_eq hv, hsum, wage, total, div_mul_eq_mul_div]
    rfl
  show g.importance v - rates.rent * g.importance v + (0 + q.boost v *
    (g.tokens + ∑ k ∈ g.nodes, rates.rent * g.importance k)) = _
  rw [hwage, zero_add]
  rfl

theorem spread_eq (hsum : (q.totalWages : ℚ) = sum q) (hv : v ≠ sumKey) :
    g.alienateTokens.toSpread rates (g.wagesLedger rates q.named q.boost) v = spread g q v := by
  rw [Graph.toSpread, settled_eq hsum hv, spread, mul_div_assoc]
  rfl

/-- **Rents, wages and spreading, one after the other, are the formula.** -/
theorem stimulate_eq (hd : Defined g q) (hsum : (q.totalWages : ℚ) = sum q)
    (hkeys : ∀ v ∈ g.nodes, v ≠ sumKey) (hclosed : ∀ w, g.neighbors w ⊆ g.nodes)
    (hstimuli : ∀ v, v ∉ g.nodes → g.stimuli v = 0) :
    g.stimulate rates q.named q.boost = after g q := by
  have himp : ∀ v, (g.consolidated rates q.named q.boost).importance v
      = if v ∈ g.nodes then settled g q v - spread g q v else g.importance v := by
    intro v
    by_cases hv : v ∈ g.nodes
    · rw [if_pos hv, ← settled_eq hsum (hkeys v hv), ← spread_eq hsum (hkeys v hv)]
      exact if_pos hv
    · rw [if_neg hv]
      exact if_neg hv
  have hreceived : ∀ v, ∑ w ∈ g.nodes with v ∈ g.neighbors w, (g.consolidated rates q.named
      q.boost).share w v ((g.consolidated rates q.named q.boost).stimuli w) = received g q v := by
    intro v
    refine sum_congr rfl fun w hw => ?_
    obtain ⟨hw, hv⟩ := mem_filter.mp hw
    have hstim : (g.consolidated rates q.named q.boost).stimuli w = spread g q w := by
      rw [← spread_eq hsum (hkeys w hw)]
      exact if_pos hw
    rw [hstim]
    exact share_eq (hd.count w v hv) _
  refine Graph.ext rfl rfl rfl (funext fun v => ?_) (funext fun v => ?_) rfl rfl rfl rfl
  · show (g.consolidated rates q.named q.boost).importance v + ∑ w ∈ g.nodes with
      v ∈ g.neighbors w, (g.consolidated rates q.named q.boost).share w v
        ((g.consolidated rates q.named q.boost).stimuli w) = (after g q).importance v
    rw [hreceived, himp]
    by_cases hv : v ∈ g.nodes
    · rw [if_pos hv]
      exact (if_pos hv).symm
    · -- nobody has an edge to what is not a node
      have hnone : received g q v = 0 := by
        refine sum_eq_zero fun w hw => ?_
        exact absurd (hclosed w (mem_filter.mp hw).2) hv
      rw [if_neg hv, hnone, add_zero]
      exact (if_neg hv).symm
  · show (if v ∈ g.nodes then (0 : ℚ)
      else (g.consolidated rates q.named q.boost).stimuli v) = 0
    by_cases hv : v ∈ g.nodes
    · exact if_pos hv
    · rw [if_neg hv, ← hstimuli v hv]
      exact if_neg hv

end Formula

/-! ## Reachable networks -/

namespace HebbianNetwork

variable {net : HebbianNetwork} {requests : List Request} {q : HandleCount} {sum : Count}

/-- No counter has wrapped. -/
def CountsBelow (requests : List Request) : Prop :=
  (∀ a, occurrences (handleLists requests) a < 2 ^ 32) ∧
    ∀ a b, a ≠ b → cooccurrences (handleLists requests) a b < 2 ^ 32

/-- Lists that are short together wrap no counter. -/
theorem countsBelow_of_lengths (h : ((handleLists requests).map List.length).sum < 2 ^ 32)
    (h' : ((handleLists requests).map fun l => l.length * l.length).sum < 2 ^ 32) :
    CountsBelow requests :=
  ⟨fun a => (occurrences_le _ a).trans_lt h, fun a b _ => (cooccurrences_le _ a b).trans_lt h'⟩

/-- The counts of an edge and of its source are not zero. -/
theorem counts_pos (hr : ∀ r ∈ requests, r.Valid) (hrun : run process new requests = some net)
    (hc : CountsBelow requests) {w v : Key} (hv : v ∈ net.graph.neighbors w) :
    net.graph.count w ≠ 0 ∧ net.graph.edgeCount w v ≠ 0 := by
  obtain ⟨hcount, hedge, hneigh⟩ := Graph.process_counts requests Graph.empty w v
  rw [← (run_new_eq hr hrun).2] at hcount hedge hneigh
  obtain ⟨hne, l, hl, hw, hv⟩ : w ≠ v ∧ ∃ l ∈ handleLists requests, w ∈ l ∧ v ∈ l := by
    simpa [Graph.empty] using hneigh.mp hv
  have hnz : ∀ {n : Nat}, 0 < n → n < 2 ^ 32 → (0 : UInt32) + UInt32.ofNat n ≠ 0 := by
    intro n h0 hn h
    have := congrArg UInt32.toNat h
    rw [UInt32.zero_add, toNat_ofNat hn] at this
    exact absurd this h0.ne'
  constructor
  · rw [hcount]
    exact hnz (occurrences_pos ⟨l, hl, hw⟩) (hc.1 w)
  · rw [hedge, if_neg hne]
    exact hnz (cooccurrences_pos ⟨l, hl, hw, hv⟩) (hc.2 w v hne)

/-- On the graphs of these networks nothing is divided by zero. -/
theorem formula_defined (hr : ∀ r ∈ requests, r.Valid)
    (hrun : run process new requests = some net) (hc : CountsBelow requests)
    (harity : 0 < net.largestArity) (hsum : q.find sumKey = some sum) (hpos : 0 < sum.val) :
    Formula.Defined net.graph q where
  sum := by
    rw [Formula.sum, hsum]
    exact Int.cast_ne_zero.mpr hpos.ne'
  largestArity := (UInt32.pos_iff_ne_zero).mp harity
  count := fun w v hv => (counts_pos hr hrun hc hv).1
  outgoing := fun w v hv => by
    have hterm : (0 : ℚ) < ((net.graph.edgeCount w v).toNat : ℚ) :=
      (Nat.cast_nonneg _).lt_of_ne' (toNat_cast_eq_zero.not.mpr (counts_pos hr hrun hc hv).2)
    have hle : ((net.graph.edgeCount w v).toNat : ℚ) ≤ Formula.outgoing net.graph w :=
      single_le_sum (f := fun x => ((net.graph.edgeCount w x).toNat : ℚ))
        (fun x _ => Nat.cast_nonneg _) hv
    exact (hterm.trans_le hle).ne'

/--
**A stimulus is the reference formula.**

On a network that complete requests have led to with counts below `2 ^ 32`, with a positive
`largest_arity`, and for a request of handles with a positive `SUM`, nothing is divided by zero
and the call leaves `after`. So does a call that goes through the entries of the request and
through the leaves of the tries in another order.
-/
theorem spreadStimuli_formula (hr : ∀ r ∈ requests, r.Valid)
    (hrun : run process new requests = some net) (hc : CountsBelow requests)
    (harity : 0 < net.largestArity) (hq : q.Valid) (hsum : q.find sumKey = some sum)
    (hpos : 0 < sum.val) :
    Formula.Defined net.graph q ∧
      (∃ net', TokenSpreader.spreadStimuli q net = .ok () net' ∧
        net'.graph = Formula.after net.graph q) ∧
      ∀ (o : HandleTrie.Order Nat) (q' : HandleCount), q'.handleCount.Perm q.handleCount →
        ∃ net', TokenSpreader.spreadStimuliIn o q' net = .ok () net' ∧
          net'.graph = Formula.after net.graph q := by
  have s := (run_new_eq hr hrun).1
  have hd := formula_defined hr hrun hc harity hsum hpos
  have htotal : (q.totalWages : ℚ) = Formula.sum q := by
    rw [Formula.sum, hsum, Option.map_some, Option.getD_some]
    exact_mod_cast HandleCount.totalWages_eq hsum hpos
  have hkeys : ∀ v ∈ net.graph.nodes, v ≠ sumKey := by
    rintro v hv rfl
    exact absurd (s.wf.isHandle_of_mem hv).1 (by decide)
  have hstimuli : ∀ v, v ∉ net.graph.nodes → net.graph.stimuli v = 0 := fun v hv =>
    nodeField_none (s.wf.not_mem_nodes.mp hv)
  have hformula := Formula.stimulate_eq hd htotal hkeys s.neighbors_subset hstimuli
  refine ⟨hd, ?_, fun o q' hperm => ?_⟩
  · obtain ⟨net', hcall, -, hgraph⟩ := TokenSpreader.spreadStimuli_simulates s hq
    exact ⟨net', hcall, hgraph.trans hformula⟩
  · obtain ⟨net', hcall, -, hgraph⟩ := TokenSpreader.spreadStimuliIn_simulates s
      (HandleCount.valid_perm hperm hq) o
    refine ⟨net', hcall, ?_⟩
    rw [hgraph, HandleCount.named_perm hperm, HandleCount.boost_perm hperm, hformula]

/-- `ab`, then a stimulus of `a`, where a letter stands for the handle made of it. -/
theorem spreadStimuli_formula_ab :
    Formula.Defined pairNetwork.graph stimulusOfA ∧
      (∃ net', TokenSpreader.spreadStimuli stimulusOfA pairNetwork = .ok () net' ∧
        net'.graph = Formula.after pairNetwork.graph stimulusOfA) ∧
      ∀ (o : HandleTrie.Order Nat) (q' : HandleCount),
        q'.handleCount.Perm stimulusOfA.handleCount →
        ∃ net', TokenSpreader.spreadStimuliIn o q' pairNetwork = .ok () net' ∧
          net'.graph = Formula.after pairNetwork.graph stimulusOfA :=
  spreadStimuli_formula pairRequests_valid run_pairNetwork
    (countsBelow_of_lengths (by decide) (by decide))
    (by decide +kernel) (stimulusOf_valid _ (by decide)) rfl (by decide)

end HebbianNetwork

end AttentionBroker
