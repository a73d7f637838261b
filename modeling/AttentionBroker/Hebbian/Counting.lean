import AttentionBroker.Hebbian.Requests

/-!
# What the counters count

A node counts the occurrences of its handle, modulo `2 ^ 32`, and an edge the pairs of
occurrences of its two handles in one list. `process_counts` says this of any sequence of
requests. From it follow what the two reading functions return and when the weight of an
edge is a probability.
-/

namespace AttentionBroker

open Infra

/-- How often a handle occurs in some lists. -/
def occurrences {κ : Type*} [DecidableEq κ] (lists : List (List κ)) (a : κ) : Nat :=
  (lists.map fun l => l.count a).sum

/-- How many pairs of occurrences of two handles there are in a list. -/
def cooccurrences {κ : Type*} [DecidableEq κ] (lists : List (List κ)) (a b : κ) : Nat :=
  (lists.map fun l => l.count a * l.count b).sum

/-- The occurrences of `b` next to `a` beyond the first in each list, for each `a`. -/
def surplus {κ : Type*} [DecidableEq κ] (lists : List (List κ)) (a b : κ) : Nat :=
  (lists.map fun l => l.count a * (l.count b - 1)).sum

/-- The occurrences of `a` in lists without `b`. -/
def occurrencesWithout {κ : Type*} [DecidableEq κ] (lists : List (List κ)) (a b : κ) : Nat :=
  (lists.map fun l => if b ∈ l then 0 else l.count a).sum

section lists

variable {κ : Type*} [DecidableEq κ] {lists mid lists' : List (List κ)}

theorem cooccurrences_comm (lists : List (List κ)) (a b : κ) :
    cooccurrences lists a b = cooccurrences lists b a := by
  simp only [cooccurrences, Nat.mul_comm]

theorem cooccurrences_add (lists : List (List κ)) (a b : κ) :
    cooccurrences lists a b + occurrencesWithout lists a b
      = occurrences lists a + surplus lists a b := by
  induction lists with
  | nil => rfl
  | cons l lists ih =>
    have hl : l.count a * l.count b + (if b ∈ l then 0 else l.count a)
        = l.count a + l.count a * (l.count b - 1) := by
      by_cases hb : b ∈ l
      · obtain ⟨n, hn⟩ : ∃ n, l.count b = n + 1 :=
          ⟨l.count b - 1, (Nat.succ_pred_eq_of_pos (List.count_pos_iff.mpr hb)).symm⟩
        rw [if_pos hb, hn, Nat.add_sub_cancel, Nat.mul_succ]
        omega
      · rw [if_neg hb, List.count_eq_zero.mpr hb]
        omega
    simp only [cooccurrences, occurrences, occurrencesWithout, surplus, List.map_cons,
      List.sum_cons] at ih ⊢
    omega

/-- Two handles of one list have a pair of occurrences. -/
theorem cooccurrences_pos {lists : List (List κ)} {a b : κ}
    (h : ∃ l ∈ lists, a ∈ l ∧ b ∈ l) : 0 < cooccurrences lists a b := by
  obtain ⟨l, hl, ha, hb⟩ := h
  have hmem : l.count a * l.count b ∈ lists.map fun l => l.count a * l.count b :=
    List.mem_map.mpr ⟨l, hl, rfl⟩
  exact (Nat.mul_pos (List.count_pos_iff.mpr ha) (List.count_pos_iff.mpr hb)).trans_le
    (List.single_le_sum (fun _ _ => Nat.zero_le _) _ hmem)

theorem occurrences_pos {lists : List (List κ)} {a : κ} (h : ∃ l ∈ lists, a ∈ l) :
    0 < occurrences lists a := by
  obtain ⟨l, hl, ha⟩ := h
  have hmem : l.count a ∈ lists.map fun l => l.count a := List.mem_map.mpr ⟨l, hl, rfl⟩
  exact (List.count_pos_iff.mpr ha).trans_le
    (List.single_le_sum (fun _ _ => Nat.zero_le _) _ hmem)

theorem occurrences_le (lists : List (List κ)) (a : κ) :
    occurrences lists a ≤ (lists.map List.length).sum :=
  List.sum_le_sum fun _ _ => List.count_le_length

theorem cooccurrences_le (lists : List (List κ)) (a b : κ) :
    cooccurrences lists a b ≤ (lists.map fun l => l.length * l.length).sum :=
  List.sum_le_sum fun _ _ => Nat.mul_le_mul List.count_le_length List.count_le_length

/-- Lists without repetitions have no surplus. -/
theorem surplus_nodup (h : ∀ l ∈ lists, l.Nodup) (a b : κ) : surplus lists a b = 0 := by
  refine List.sum_eq_zero fun n hn => ?_
  obtain ⟨l, hl, rfl⟩ := List.mem_map.mp hn
  rw [Nat.sub_eq_zero_of_le (List.nodup_iff_count_le_one.mp (h l hl) b), Nat.mul_zero]

omit [DecidableEq κ] in
/-- A sum over lists does not depend on their order or on the order inside them. -/
theorem sum_map_perm (h : lists.Perm mid) (h' : List.Forall₂ List.Perm mid lists')
    {f : List κ → Nat} (hf : ∀ l l' : List κ, l.Perm l' → f l = f l') :
    (lists.map f).sum = (lists'.map f).sum := by
  rw [(h.map f).sum_eq]
  clear h
  induction h' with
  | nil => rfl
  | cons hl _ ih => rw [List.map_cons, List.map_cons, List.sum_cons, List.sum_cons, ih, hf _ _ hl]

theorem occurrences_perm (h : lists.Perm mid) (h' : List.Forall₂ List.Perm mid lists') (a : κ) :
    occurrences lists a = occurrences lists' a :=
  sum_map_perm h h' fun _ _ hp => hp.count_eq a

theorem cooccurrences_perm (h : lists.Perm mid) (h' : List.Forall₂ List.Perm mid lists')
    (a b : κ) : cooccurrences lists a b = cooccurrences lists' a b :=
  sum_map_perm h h' fun _ _ hp => by rw [hp.count_eq a, hp.count_eq b]

omit [DecidableEq κ] in
theorem exists_perm_of_mem (h' : List.Forall₂ List.Perm mid lists') {l' : List κ}
    (hl' : l' ∈ lists') : ∃ l ∈ mid, l.Perm l' := by
  induction h' with
  | nil => exact absurd hl' List.not_mem_nil
  | @cons l _ mid _ hp _ ih =>
    rcases List.mem_cons.mp hl' with rfl | hl'
    · exact ⟨l, List.mem_cons_self, hp⟩
    · obtain ⟨m, hm, hmp⟩ := ih hl'
      exact ⟨m, List.mem_cons_of_mem _ hm, hmp⟩

end lists

/-- The lists of the correlation requests. -/
def handleLists (requests : List Request) : List (List Key) :=
  requests.filterMap Request.handleList?

namespace Graph

theorem process_counts (requests : List Request) : ∀ (g : Graph Key) (a b : Key),
    (requests.foldl process g).count a
      = g.count a + UInt32.ofNat (occurrences (handleLists requests) a) ∧
    (requests.foldl process g).edgeCount a b
      = g.edgeCount a b
        + UInt32.ofNat (if a = b then 0 else cooccurrences (handleLists requests) a b) ∧
    (b ∈ (requests.foldl process g).neighbors a ↔
      b ∈ g.neighbors a ∨ a ≠ b ∧ ∃ l ∈ handleLists requests, a ∈ l ∧ b ∈ l) := by
  induction requests with
  | nil =>
    intro g a b
    simp [handleLists, occurrences, cooccurrences]
  | cons r rs ih =>
    intro g a b
    obtain ⟨ihc, ihe, ihn⟩ := ih (g.process r) a b
    rw [List.foldl_cons, ihc, ihe, ihn]
    cases r with
    -- a stimulus changes no counter
    | stimulus q => exact ⟨rfl, rfl, Iff.rfl⟩
    | correlation l =>
      obtain ⟨hn, he, -, -⟩ := foldl_addNode_links l g
      have hlists : handleLists (.correlation l :: rs) = l :: handleLists rs := rfl
      rw [hlists]
      refine ⟨?_, ?_, ?_⟩
      · show ((edgePairs l).foldl addEdge (l.foldl addNode g)).count a + _ = _
        rw [foldl_addEdge_count, foldl_addNode_count, UInt32.add_assoc, ← UInt32.ofNat_add]
        rfl
      · show ((edgePairs l).foldl addEdge (l.foldl addNode g)).edgeCount a b + _ = _
        rw [foldl_addEdge_edgeCount, he, count_edgePairs, UInt32.add_assoc, ← UInt32.ofNat_add]
        by_cases hab : a = b
        · simp [hab]
        · simp [hab, cooccurrences]
      · show b ∈ ((edgePairs l).foldl addEdge (l.foldl addNode g)).neighbors a ∨ _ ↔ _
        rw [foldl_addEdge_neighbors, hn, mem_edgePairs]
        simp only [List.mem_cons, exists_eq_or_imp, and_or_left, or_assoc]

end Graph

namespace HebbianNetwork

variable {net net' : HebbianNetwork} {lists : List (List Key)} {a b : Key}

theorem handleLists_map (lists : List (List Key)) :
    handleLists (lists.map .correlation) = lists := by
  rw [handleLists, List.filterMap_map]
  exact List.filterMap_some

/-- The network after some correlation requests, and what its counters count. -/
theorem run_correlations (hl : ∀ l ∈ lists, ∀ k ∈ l, IsHandle k) :
    ∃ net, run process new (lists.map .correlation) = some net ∧ net.Sound ∧
      (∀ a, net.graph.count a = UInt32.ofNat (occurrences lists a)) ∧
      (∀ a b, net.graph.edgeCount a b
        = UInt32.ofNat (if a = b then 0 else cooccurrences lists a b)) ∧
      (∀ a b, b ∈ net.graph.neighbors a ↔ a ≠ b ∧ ∃ l ∈ lists, a ∈ l ∧ b ∈ l) := by
  have hr : ∀ r ∈ lists.map Request.correlation, r.Valid := by
    intro r hr
    obtain ⟨l, hl', rfl⟩ := List.mem_map.mp hr
    exact hl l hl'
  obtain ⟨net, hrun, s, hg⟩ := run_process sound_new hr
  have hcounts := Graph.process_counts (lists.map .correlation) Graph.empty
  rw [handleLists_map] at hcounts
  rw [graph_new] at hg
  refine ⟨net, hrun, s, fun a => ?_, fun a b => ?_, fun a b => ?_⟩
  · rw [hg, (hcounts a a).1]
    exact UInt32.zero_add _
  · rw [hg, (hcounts a b).2.1]
    exact UInt32.zero_add _
  · rw [hg, (hcounts a b).2.2]
    simp [Graph.empty]

/-! ## Exact counting -/

theorem toNat_ofNat {n : Nat} (h : n < 2 ^ 32) : (UInt32.ofNat n).toNat = n :=
  UInt32.toNat_ofNat_of_lt' h

/-- The two reading functions return the counts of the lists. -/
structure CountsExactly (lists : List (List Key)) (net : HebbianNetwork) : Prop where
  nodeCount : ∀ h, IsHandle h →
    (net.getNodeCount h).map UInt32.toNat = .ok (occurrences lists h)
  edgeCount : ∀ a b, IsHandle a → IsHandle b → a ≠ b →
    (net.getAsymmetricEdgeCount a b).map UInt32.toNat = .ok (cooccurrences lists a b)
  noSelfEdge : ∀ a, IsHandle a → net.getAsymmetricEdgeCount a a = .ok 0
  symmetric : ∀ a b, IsHandle a → IsHandle b →
    net.getAsymmetricEdgeCount a b = net.getAsymmetricEdgeCount b a
  /-- The same requests in another order, or with the handles of a list in another order. -/
  reordered : ∀ mid lists', lists.Perm mid → List.Forall₂ List.Perm mid lists' →
    ∃ net', run process new (lists'.map .correlation) = some net' ∧
      (∀ h, IsHandle h → net'.getNodeCount h = net.getNodeCount h) ∧
      ∀ a b, IsHandle a → IsHandle b →
        net'.getAsymmetricEdgeCount a b = net.getAsymmetricEdgeCount a b

/--
**Exact counting.**

After any correlation requests whose counts stay below `2 ^ 32`, `get_node_count` returns
the number of occurrences and `get_asymmetric_edge_count` the number of pairs of
occurrences in one list. So edge counts are symmetric and no order matters.
-/
theorem correlation_counts_exactly (hl : ∀ l ∈ lists, ∀ k ∈ l, IsHandle k)
    (hnode : ∀ h, occurrences lists h < 2 ^ 32)
    (hedge : ∀ a b, a ≠ b → cooccurrences lists a b < 2 ^ 32) :
    ∃ net, run process new (lists.map .correlation) = some net ∧ CountsExactly lists net := by
  obtain ⟨net, hrun, s, hcount, hedgeCount, -⟩ := run_correlations hl
  refine ⟨net, hrun, fun h hh => ?_, fun a b ha hb hab => ?_, fun a ha => ?_,
    fun a b ha hb => ?_, fun mid lists' hperm hforall => ?_⟩
  · rw [getNodeCount_eq s.wf hh, hcount]
    exact congrArg Except.ok (toNat_ofNat (hnode h))
  · rw [getAsymmetricEdgeCount_eq s.wf ha hb, hedgeCount, if_neg hab]
    exact congrArg Except.ok (toNat_ofNat (hedge a b hab))
  · rw [getAsymmetricEdgeCount_eq s.wf ha ha, hedgeCount, if_pos rfl]
    rfl
  · rw [getAsymmetricEdgeCount_eq s.wf ha hb, getAsymmetricEdgeCount_eq s.wf hb ha, hedgeCount,
      hedgeCount, cooccurrences_comm]
    simp only [eq_comm]
  · have hl' : ∀ l' ∈ lists', ∀ k ∈ l', IsHandle k := by
      intro l' hl'
      obtain ⟨l, hmem, hp⟩ := exists_perm_of_mem hforall hl'
      intro k hk
      exact hl l (hperm.mem_iff.mpr hmem) k (hp.mem_iff.mpr hk)
    obtain ⟨net', hrun', s', hcount', hedgeCount', -⟩ := run_correlations hl'
    refine ⟨net', hrun', fun h hh => ?_, fun a b ha hb => ?_⟩
    · rw [getNodeCount_eq s.wf hh, getNodeCount_eq s'.wf hh, hcount, hcount',
        occurrences_perm hperm hforall]
    · rw [getAsymmetricEdgeCount_eq s.wf ha hb, getAsymmetricEdgeCount_eq s'.wf ha hb,
        hedgeCount, hedgeCount', cooccurrences_perm hperm hforall]

/-- `aab` and `b`, where a letter stands for the handle made of it. -/
theorem correlation_counts_exactly_aab_b :
    ∃ net, run process new ([[handleOf 97, handleOf 97, handleOf 98], [handleOf 98]].map
        .correlation) = some net ∧
      CountsExactly [[handleOf 97, handleOf 97, handleOf 98], [handleOf 98]] net :=
  correlation_counts_exactly (by decide +kernel)
    (fun h => (occurrences_le _ h).trans_lt (by decide))
    fun a b _ => (cooccurrences_le _ a b).trans_lt (by decide)

/-! ## Weights -/

/-- The weight of every edge is a probability, and its count at most that of its source. -/
def WeightsAreProbabilities (net : HebbianNetwork) : Prop :=
  ∀ a b, b ∈ net.graph.neighbors a →
    1 ≤ net.graph.edgeCount a b ∧ net.graph.edgeCount a b ≤ net.graph.count a ∧
      0 < net.graph.weight a b ∧ net.graph.weight a b ≤ 1

theorem probability_iff {g : Graph Key} :
    (1 ≤ g.edgeCount a b ∧ g.edgeCount a b ≤ g.count a ∧ 0 < g.weight a b ∧ g.weight a b ≤ 1) ↔
      1 ≤ (g.edgeCount a b).toNat ∧ (g.edgeCount a b).toNat ≤ (g.count a).toNat := by
  constructor
  · rintro ⟨h1, h2, -, -⟩
    exact ⟨UInt32.le_iff_toNat_le.mp h1, UInt32.le_iff_toNat_le.mp h2⟩
  · rintro ⟨h1, h2⟩
    have he : (0 : ℚ) < (g.edgeCount a b).toNat := Nat.cast_pos.mpr h1
    have hc : (0 : ℚ) < (g.count a).toNat := Nat.cast_pos.mpr (h1.trans h2)
    refine ⟨UInt32.le_iff_toNat_le.mpr h1, UInt32.le_iff_toNat_le.mpr h2, div_pos he hc, ?_⟩
    exact (div_le_one hc).mpr (Nat.cast_le.mpr h2)

/--
**When the weights are probabilities.**

They are as long as, for any two handles of one list, the number of pairs of occurrences
is from 1 to the number of occurrences of the source, both as 32-bit counters show them.
Where no counter wraps around this is a matter of repeated handles: the surplus of the
target is at most the number of times the source occurs without it.
-/
theorem weightsAreProbabilities_iff (hl : ∀ l ∈ lists, ∀ k ∈ l, IsHandle k) :
    ∃ net, run process new (lists.map .correlation) = some net ∧
      (net.WeightsAreProbabilities ↔ ∀ a b, a ≠ b → (∃ l ∈ lists, a ∈ l ∧ b ∈ l) →
        1 ≤ cooccurrences lists a b % 2 ^ 32 ∧
          cooccurrences lists a b % 2 ^ 32 ≤ occurrences lists a % 2 ^ 32) ∧
      ((∀ h, occurrences lists h < 2 ^ 32) → (∀ a b, cooccurrences lists a b < 2 ^ 32) →
        (net.WeightsAreProbabilities ↔ ∀ a b, a ≠ b → (∃ l ∈ lists, a ∈ l ∧ b ∈ l) →
          surplus lists a b ≤ occurrencesWithout lists a b)) := by
  obtain ⟨net, hrun, s, hcount, hedgeCount, hneighbors⟩ := run_correlations hl
  have hmod : net.WeightsAreProbabilities ↔ ∀ a b, a ≠ b → (∃ l ∈ lists, a ∈ l ∧ b ∈ l) →
      1 ≤ cooccurrences lists a b % 2 ^ 32 ∧
        cooccurrences lists a b % 2 ^ 32 ≤ occurrences lists a % 2 ^ 32 := by
    have hpair : ∀ a b, a ≠ b →
        ((1 ≤ net.graph.edgeCount a b ∧ net.graph.edgeCount a b ≤ net.graph.count a ∧
          0 < net.graph.weight a b ∧ net.graph.weight a b ≤ 1) ↔
        1 ≤ cooccurrences lists a b % 2 ^ 32 ∧
          cooccurrences lists a b % 2 ^ 32 ≤ occurrences lists a % 2 ^ 32) := by
      intro a b hab
      rw [probability_iff, hcount, hedgeCount, if_neg hab, UInt32.toNat_ofNat',
        UInt32.toNat_ofNat']
    constructor
    · intro h a b hab hco
      exact (hpair a b hab).mp (h a b ((hneighbors a b).mpr ⟨hab, hco⟩))
    · intro h a b hb
      obtain ⟨hab, hco⟩ := (hneighbors a b).mp hb
      exact (hpair a b hab).mpr (h a b hab hco)
  refine ⟨net, hrun, hmod, fun hnode hedge => hmod.trans ?_⟩
  refine forall_congr' fun a => forall_congr' fun b => forall_congr' fun _ =>
    forall_congr' fun hco => ?_
  -- without wrap-around this compares the surplus with the lists that lack the target
  have hpos := cooccurrences_pos hco
  have hadd := cooccurrences_add lists a b
  rw [Nat.mod_eq_of_lt (hnode a), Nat.mod_eq_of_lt (hedge a b)]
  omega

/-- `ab`, where a letter stands for the handle made of it. -/
theorem weightsAreProbabilities_iff_ab :
    ∃ net, run process new ([[handleOf 97, handleOf 98]].map .correlation) = some net ∧
      net.WeightsAreProbabilities := by
  have hl : ∀ l ∈ [[handleOf 97, handleOf 98]], ∀ k ∈ l, IsHandle k := by decide +kernel
  have hnodup : ∀ l ∈ [[handleOf 97, handleOf 98]], l.Nodup := by decide
  obtain ⟨net, hrun, -, h⟩ := weightsAreProbabilities_iff hl
  refine ⟨net, hrun, (h (fun a => ?_) fun a b => ?_).mpr fun a b _ _ => ?_⟩
  · exact (occurrences_le _ a).trans_lt (by decide)
  · exact (cooccurrences_le _ a b).trans_lt (by decide)
  · rw [surplus_nodup hnodup]
    exact Nat.zero_le _

/--
`aab`: with the first letter twice in one list, the edge from `b` to `a` has a higher count
than `b`.
-/
theorem weightsAreProbabilities_fails_aab :
    ∃ net, run process new [.correlation [handleOf 97, handleOf 97, handleOf 98]] = some net ∧
      ¬ net.WeightsAreProbabilities := by
  have hl : ∀ l ∈ [[handleOf 97, handleOf 97, handleOf 98]], ∀ k ∈ l, IsHandle k := by
    decide +kernel
  obtain ⟨net, hrun, s, hcount, hedgeCount, hneighbors⟩ := run_correlations hl
  refine ⟨net, hrun, fun h => ?_⟩
  have hle := (h (handleOf 98) (handleOf 97) ((hneighbors _ _).mpr (by decide))).2.1
  rw [hcount, hedgeCount] at hle
  exact absurd hle (by decide)

end HebbianNetwork

end AttentionBroker
