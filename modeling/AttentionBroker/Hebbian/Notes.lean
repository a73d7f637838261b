import AttentionBroker.Hebbian.Formula

/-!
# What a stimulus pays out and what it divides by

`noting` runs a visit function and notes values it uses. The run without the notes is the run of
the broker (`spreadStimuliNoting_erase`).

The wages are noted where they are credited (`wages_paid_iff`): what is promised to a handle that
is no node is never read. The divisors are noted where they divide, and `distributeWages_divides` and
the lemmas for the visits say that they are what is divided by. All of them are nonzero but
`largest_arity`, which is 0 until two different handles have come in one list
(`divisors_nonzero_iff`).
-/

namespace AttentionBroker

open Infra Finset

namespace TokenSpreader

open HebbianNetwork

/-! ## Visits that take notes -/

/-- The visit, which also notes some values of the state it starts from. -/
def noting (note : TrieNode Nat → HebbianNetwork × StimuliData → List ℚ)
    (visit : TrieNode Nat → HebbianNetwork × StimuliData → Visit) (node : TrieNode Nat) :
    HebbianNetwork × StimuliData × List ℚ →
      Except Fault (Bool × HebbianNetwork × StimuliData × List ℚ)
  | (net, data, notes) => do
    let (stop, net', data') ← visit node (net, data)
    .ok (stop, net', data', notes ++ note node (net, data))

/-- The state without the notes. -/
def bare (st : HebbianNetwork × StimuliData × List ℚ) : HebbianNetwork × StimuliData :=
  (st.1, st.2.1)

/-- The wages a visit of `consolidate_rent_and_wages` credits. -/
def creditedWages (node : TrieNode Nat) : HebbianNetwork × StimuliData → List ℚ
  | (_, data) =>
    match data.importanceChanges.lookup node.suffix with
    | .ok (some changes) => [(data.changes.cell changes).wages]
    | _ => []

/-- What `consolidate_rent_and_wages` divides by. -/
def consolidateDivisors (_ : TrieNode Nat) : HebbianNetwork × StimuliData → List ℚ
  | (_, data) => [(data.largestArity.toNat : ℚ)]

/-- What `sum_weights` divides by. -/
def sumWeightsDivisors (node : TrieNode Nat) : HebbianNetwork × StimuliData → List ℚ
  | (net, _) =>
    match node.value.bind fun e => (net.edge e).node1 with
    | some node1 => [((net.node node1).count.toNat : ℚ)]
    | none => []

/-- What `deliver_stimulus` divides by. -/
def deliverDivisors (node : TrieNode Nat) : HebbianNetwork × StimuliData → List ℚ
  | (net, data) => sumWeightsDivisors node (net, data) ++ [data.sumWeights]

/-- `consolidate_stimulus`, which notes what it divides by. -/
def consolidateStimulusNoting (node : TrieNode Nat) :
    HebbianNetwork × StimuliData × List ℚ →
      Except Fault (Bool × HebbianNetwork × StimuliData × List ℚ)
  | (net, data, notes) => do
    let value ← deref node.value
    let neighbors := (net.node value).neighbors
    let data := { data with toSpread := (net.node value).stimuliToSpread, sumWeights := 0 }
    let (net, data, notes) ← neighbors.traverse true (noting sumWeightsDivisors sumWeights)
      (net, data, notes)
    let (net, data, notes) ← neighbors.traverse true (noting deliverDivisors deliverStimulus)
      (net, data, notes)
    .ok (false, net.modifyNode value fun n => { n with stimuliToSpread := 0 }, data, notes)

/-- The divisions of `distribute_wages`, one for each entry other than `SUM`. -/
def distributeDivisors (request : HandleCount) : List ℚ :=
  request.stimuli.map fun _ => (request.totalWages : ℚ)

/-- `spread_stimuli`, which returns what it has divided by. -/
def spreadStimuliNoting (request : HandleCount) : NetM (List ℚ) := do
  let data ← collectRentPhase
  let data ← distributeWagesPhase request data
  let (data, notes) ← visitNodes true (noting consolidateDivisors consolidateRentAndWages)
    (data, distributeDivisors request)
  let (_, notes) ← visitNodes true consolidateStimulusNoting (data, notes)
  return notes

/-! ## Without the notes -/

variable {net net' : HebbianNetwork} {data : StimuliData} {request : HandleCount}
  {note : TrieNode Nat → HebbianNetwork × StimuliData → List ℚ}
  {visit : TrieNode Nat → HebbianNetwork × StimuliData → Visit} {n : TrieNode Nat}

theorem noting_erase (note : TrieNode Nat → HebbianNetwork × StimuliData → List ℚ)
    (visit : TrieNode Nat → HebbianNetwork × StimuliData → Visit) (n : TrieNode Nat)
    (st : HebbianNetwork × StimuliData × List ℚ) :
    visit n (bare st) = (noting note visit n st).map (Prod.map id bare) := by
  obtain ⟨net, data, notes⟩ := st
  unfold noting
  simp only [bare, bind, Except.bind]
  rcases visit n (net, data) with e | ⟨stop, net', data'⟩ <;> rfl

theorem consolidateStimulusNoting_erase (n : TrieNode Nat)
    (st : HebbianNetwork × StimuliData × List ℚ) :
    consolidateStimulus n (bare st)
      = (consolidateStimulusNoting n st).map (Prod.map id bare) := by
  obtain ⟨net, data, notes⟩ := st
  unfold consolidateStimulusNoting consolidateStimulus
  rcases hv : n.value with _ | a
  · rfl
  · simp only [bare, deref, bind, Except.bind]
    have hsum := HandleTrie.traverse_map (t := (net.node a).neighbors)
      (noting_erase sumWeightsDivisors sumWeights) true
      (net, { data with toSpread := (net.node a).stimuliToSpread, sumWeights := 0 }, notes)
    simp only [bare] at hsum
    rw [hsum]
    rcases (net.node a).neighbors.traverse true (noting sumWeightsDivisors sumWeights)
      (net, { data with toSpread := (net.node a).stimuliToSpread, sumWeights := 0 }, notes) with
      e | ⟨net₁, data₁, notes₁⟩
    · rfl
    · have hdel := HandleTrie.traverse_map (t := (net.node a).neighbors)
        (noting_erase deliverDivisors deliverStimulus) true (net₁, data₁, notes₁)
      simp only [bare] at hdel
      simp only [Except.map, bare, hdel]
      rcases (net.node a).neighbors.traverse true (noting deliverDivisors deliverStimulus)
        (net₁, data₁, notes₁) with e | ⟨net₂, data₂, notes₂⟩ <;> rfl

/-- A traversal that takes notes ends as the one that does not. -/
theorem visitNodes_erase
    {visit' : TrieNode Nat → HebbianNetwork × StimuliData × List ℚ →
      Except Fault (Bool × HebbianNetwork × StimuliData × List ℚ)}
    (h : ∀ n st, visit n (bare st) = (visit' n st).map (Prod.map id bare)) (locked : Bool)
    (data : StimuliData) (notes : List ℚ) :
    visitNodes locked visit data
      = (visitNodes locked visit' (data, notes) >>= fun r => pure r.1) := by
  funext net
  have hmap := HandleTrie.traverse_map (t := net.nodes) h locked (net, data, notes)
  show visitNodes locked visit data net = EStateM.bind _ _ net
  unfold EStateM.bind visitNodes
  simp only [bare] at hmap
  rw [hmap]
  rcases net.nodes.traverse locked visit' (net, data, notes) with e | ⟨net', data', notes'⟩ <;> rfl

/-- **The call that takes notes is the call of the broker.** -/
theorem spreadStimuliNoting_erase (request : HandleCount) :
    spreadStimuli request = discard (spreadStimuliNoting request) := by
  have hdiscard : ∀ {α : Type} (x : NetM α), discard x = x >>= fun _ => pure () := fun _ => rfl
  unfold spreadStimuli spreadStimuliNoting consolidatePhase spreadPhase
  simp only [hdiscard, bind_assoc, pure_bind]
  refine congrArg _ (funext fun data₁ => congrArg _ (funext fun data₂ => ?_))
  rw [visitNodes_erase (noting_erase consolidateDivisors consolidateRentAndWages) true data₂
    (distributeDivisors request)]
  simp only [bind_assoc, pure_bind]
  refine congrArg _ (funext fun r => ?_)
  rw [visitNodes_erase consolidateStimulusNoting_erase true r.1 r.2]
  simp only [bind_assoc, pure_bind]

/-! ## The divisors are what is divided by -/

/-- The loop of `distribute_wages` divides once for each entry other than `SUM`. -/
theorem distributeWage_divides (totalToSpread : ℚ) (totalWages : Nat) (l : List (Key × Count)) :
    ∀ (data : StimuliData), l.foldlM (distributeWage totalToSpread totalWages) data
      = ((l.filter fun e => e.1 ≠ sumKey).zip
          ((l.filter fun e => e.1 ≠ sumKey).map fun _ => (totalWages : ℚ))).foldlM (fun data e =>
            data.insertChanges e.1.1 0 ((e.1.2.val : ℚ) * totalToSpread / e.2)) data := by
  induction l with
  | nil => intro _; rfl
  | cons e l ih =>
    intro data
    by_cases he : e.1 ≠ sumKey
    · have hfilter : (e :: l).filter (fun e => e.1 ≠ sumKey)
          = e :: l.filter fun e => e.1 ≠ sumKey := List.filter_cons_of_pos (by simpa using he)
      rw [hfilter, List.map_cons, List.zip_cons_cons, List.foldlM_cons, List.foldlM_cons,
        distributeWage, if_pos he]
      exact congrArg _ (funext ih)
    · have hfilter : (e :: l).filter (fun e => e.1 ≠ sumKey)
          = l.filter fun e => e.1 ≠ sumKey := List.filter_cons_of_neg (by simpa using he)
      rw [hfilter, ← ih, List.foldlM_cons, distributeWage, if_neg he]
      rfl

/-- `distribute_wages` divides by the divisors noted for its entries. -/
theorem distributeWages_divides {sum : Count} (h : request.find sumKey = some sum)
    (totalToSpread : ℚ) : distributeWages request totalToSpread data
      = (request.stimuli.zip (distributeDivisors request)).foldlM (fun data e =>
          data.insertChanges e.1.1 0 ((e.1.2.val : ℚ) * totalToSpread / e.2)) data := by
  have hwages : request.totalWages = (sum.val % 2 ^ 32).toNat := by
    rw [HandleCount.totalWages, h, Option.map_some, Option.getD_some]
  unfold distributeWages distributeDivisors
  rw [h, hwages]
  exact distributeWage_divides totalToSpread _ request.handleCount data

/-- A visit of `consolidate_rent_and_wages` divides the arity by the divisor noted. -/
theorem consolidateRentAndWages_divides {r : Bool × HebbianNetwork × StimuliData}
    (h : consolidateRentAndWages n (net, data) = .ok r) :
    ∃ a importance d, n.value = some a ∧ consolidateDivisors n (net, data) = [d] ∧
      let toSpread := importance * (data.spreadingRateLowerbound
        + data.spreadingRateRangeSize * (((net.node a).arity.toNat : ℚ) / d))
      r = (false, net.modifyNode a fun x =>
        { x with importance := importance - toSpread, stimuliToSpread := toSpread }, data) := by
  unfold consolidateRentAndWages at h
  rcases hv : n.value with _ | a <;>
    simp only [hv, deref, bind, Except.bind, reduceCtorEq] at h
  rcases hl : data.importanceChanges.lookup n.suffix with e | c <;>
    simp only [hl, reduceCtorEq] at h
  rcases c with _ | c <;> simp only [reduceCtorEq, Except.ok.injEq] at h
  exact ⟨a, _, _, rfl, rfl, h.symm⟩

/-- A weight is a count divided by the divisor noted. -/
theorem weight_divides (data : StimuliData) {e : Nat} {w : ℚ} (hv : n.value = some e)
    (h : weight net (net.edge e) = .ok w) :
    ∃ d, sumWeightsDivisors n (net, data) = [d] ∧ w = ((net.edge e).count.toNat : ℚ) / d := by
  unfold weight at h
  rcases h1 : (net.edge e).node1 with _ | a <;>
    simp only [h1, deref, bind, Except.bind, reduceCtorEq, Except.ok.injEq] at h
  refine ⟨((net.node a).count.toNat : ℚ), ?_, h.symm⟩
  unfold sumWeightsDivisors
  simp only [hv, Option.bind_some, h1]

/-- A visit of `sum_weights` divides by the divisor noted. -/
theorem sumWeights_divides {r : Bool × HebbianNetwork × StimuliData}
    (h : sumWeights n (net, data) = .ok r) :
    ∃ e d, n.value = some e ∧ sumWeightsDivisors n (net, data) = [d] ∧
      r = (false, net, { data with
        sumWeights := data.sumWeights + ((net.edge e).count.toNat : ℚ) / d }) := by
  unfold sumWeights at h
  rcases hv : n.value with _ | e <;> simp only [hv, deref, bind, Except.bind, reduceCtorEq] at h
  rcases hw : weight net (net.edge e) with f | w <;>
    simp only [hw, reduceCtorEq, Except.ok.injEq] at h
  obtain ⟨d, hd, rfl⟩ := weight_divides data hv hw
  exact ⟨e, d, rfl, hd, h.symm⟩

/-- A visit of `deliver_stimulus` divides by the two divisors noted, one after the other. -/
theorem deliverStimulus_divides {r : Bool × HebbianNetwork × StimuliData}
    (h : deliverStimulus n (net, data) = .ok r) :
    ∃ e b d₁ d₂, n.value = some e ∧ (net.edge e).node2 = some b ∧
      deliverDivisors n (net, data) = [d₁, d₂] ∧
      r = (false, net.modifyNode b fun x => { x with importance :=
        x.importance + ((net.edge e).count.toNat : ℚ) / d₁ / d₂ * data.toSpread }, data) := by
  unfold deliverStimulus at h
  rcases hv : n.value with _ | e <;> simp only [hv, deref, bind, Except.bind, reduceCtorEq] at h
  rcases hw : weight net (net.edge e) with f | w <;> simp only [hw, reduceCtorEq] at h
  rcases h2 : (net.edge e).node2 with _ | b <;>
    simp only [h2, reduceCtorEq, Except.ok.injEq] at h
  obtain ⟨d, hd, rfl⟩ := weight_divides data hv hw
  refine ⟨e, b, d, data.sumWeights, rfl, h2, ?_, h.symm⟩
  rw [deliverDivisors, hd]
  rfl

/-! ## What is noted -/

/-- A visit that succeeds and takes notes. -/
theorem noting_ok {st : HebbianNetwork × StimuliData} {stop : Bool}
    (hrun : visit n (net, data) = .ok (stop, st)) (notes : List ℚ) :
    noting note visit n (net, data, notes)
      = .ok (stop, st.1, st.2, notes ++ note n (net, data)) := by
  unfold noting
  simp only [bind, Except.bind, hrun]

/-- The rule for a traversal that takes notes. -/
theorem traverse_noting (note : TrieNode Nat → HebbianNetwork × StimuliData → List ℚ)
    (visit : TrieNode Nat → HebbianNetwork × StimuliData → Visit) {t : HandleTrie Nat} (wf : t.Wf)
    {I : Finset Key → HebbianNetwork × StimuliData → Prop} {P : ℚ → Prop} (h0 : I ∅ (net, data))
    (hstep : ∀ n v seen st, n.value = some v → t.find n.suffix = some v → n.suffix ∉ seen →
      I seen st → (∃ st', visit n st = .ok (false, st') ∧ I (insert n.suffix seen) st') ∧
        ∀ d ∈ note n st, P d) (notes : List ℚ) :
    ∃ net' data' extra, t.traverse true (noting note visit) (net, data, notes)
      = .ok (net', data', notes ++ extra) ∧ I t.keySet (net', data') ∧ ∀ d ∈ extra, P d := by
  obtain ⟨⟨net', data', notes'⟩, hrun, hI, extra, hextra, hP⟩ := traverse_induct wf true
    (noting note visit) (net, data, notes)
    (fun seen st => I seen (bare st) ∧ ∃ extra, st.2.2 = notes ++ extra ∧ ∀ d ∈ extra, P d)
    ⟨h0, [], by simp, by simp⟩
    (by
      rintro n v seen ⟨net₁, data₁, notes₁⟩ hv hf hns ⟨hI, extra, hextra, hP⟩
      obtain ⟨⟨st', hvisit, hI'⟩, hnote⟩ := hstep n v seen (net₁, data₁) hv hf hns hI
      refine ⟨_, noting_ok hvisit notes₁, hI', extra ++ note n (net₁, data₁), ?_, ?_⟩
      · show notes₁ ++ _ = _
        rw [show notes₁ = notes ++ extra from hextra, List.append_assoc]
      · intro d hd
        rcases List.mem_append.mp hd with hd | hd
        · exact hP d hd
        · exact hnote d hd)
  obtain rfl : notes' = notes ++ extra := hextra
  exact ⟨net', data', extra, hrun, hI, hP⟩

/-- What the second traversal notes, if that depends on the handle only. -/
theorem consolidate_notes (note : TrieNode Nat → HebbianNetwork × StimuliData → List ℚ)
    (s : net.Sound) (wf : data.Wf) (hkeys : net.graph.nodes ⊆ data.ledger.keys) {f : Key → List ℚ}
    (hnote : ∀ n net', IsHandle n.suffix → n.suffix ∈ data.ledger.keys →
      note n (net', data) = f n.suffix) (notes : List ℚ) :
    ∃ net', ∃ handles : List Key,
      visitNodes true (noting note consolidateRentAndWages) (data, notes) net
        = .ok (data, notes ++ handles.flatMap f) net' ∧ Moved net net' ∧
      net'.graph = net.graph.consolidate rates data.ledger ∧
      handles.Nodup ∧ handles.toFinset = net.graph.nodes := by
  obtain ⟨⟨net', data', notes'⟩, hrun, hI, handles, hnd, hseen, hnotes⟩ :=
    traverse_induct s.wf.nodes true (noting note consolidateRentAndWages) (net, data, notes)
    (fun seen st => Consolidated net data seen (bare st) ∧ ∃ handles : List Key, handles.Nodup ∧
      handles.toFinset = seen ∧ st.2.2 = notes ++ handles.flatMap f)
    ⟨⟨rfl, Moved.refl s, fun k => by rw [if_neg (notMem_empty k)]; rfl,
      fun k => by rw [if_neg (notMem_empty k)]; rfl⟩, [], List.nodup_nil, rfl, by simp⟩
    (by
      rintro n a seen ⟨net₁, data₁, notes₁⟩ hv ha hns ⟨hI, handles, hnd, hseen, hnotes⟩
      obtain rfl : data₁ = data := hI.same
      obtain rfl : notes₁ = notes ++ handles.flatMap f := hnotes
      have hn := s.wf.isHandle ha
      have hkey : n.suffix ∈ data₁.ledger.keys := hkeys (s.wf.mem_nodes.mpr ⟨a, ha⟩)
      obtain ⟨st, hvisit, hI'⟩ := consolidate_step wf hv ha hn hns hkey hI
      refine ⟨_, noting_ok hvisit _, hI', handles ++ [n.suffix], ?_, ?_, ?_⟩
      · have hnot : n.suffix ∉ handles := fun h => hns (hseen ▸ List.mem_toFinset.mpr h)
        exact List.nodup_append.mpr ⟨hnd, List.nodup_singleton _, by
          rintro x hx y hy rfl
          exact hnot (List.mem_singleton.mp hy ▸ hx)⟩
      · rw [List.toFinset_append, hseen, insert_eq, union_comm]
        rfl
      · rw [hnote n net₁ hn hkey, List.flatMap_append, List.append_assoc]
        simp)
  obtain rfl : data' = data := hI.same
  obtain rfl : notes' = notes ++ handles.flatMap f := hnotes
  exact ⟨net', handles, visitNodes_ok hrun, hI.moved, hI.graph, hnd, hseen⟩

/-! ## The wages that are credited -/

theorem alienateTokens_of_distributeWagesPhase {data' : StimuliData}
    (hrun : distributeWagesPhase request data net = .ok data' net') :
    alienateTokens net = .ok net.tokensToDistribute net' := by
  have htake : alienateTokens net
      = .ok net.tokensToDistribute { net with tokensToDistribute := 0 } := rfl
  unfold distributeWagesPhase at hrun
  rw [NetM.bind_ok htake] at hrun
  rcases hd : distributeWages request (net.tokensToDistribute + data.totalRent) data with e | d <;>
    rw [hd] at hrun <;> cases hrun
  exact htake

/-- The second traversal credits what the ledger notes for the nodes, and nothing else. -/
theorem consolidate_wages (s : net.Sound) (wf : data.Wf)
    (hkeys : net.graph.nodes ⊆ data.ledger.keys) :
    ∃ net' wages, visitNodes true (noting creditedWages consolidateRentAndWages) (data, []) net
      = .ok (data, wages) net' ∧ net'.graph = net.graph.consolidate rates data.ledger ∧
        wages.sum = ∑ k ∈ net.graph.nodes, data.ledger.wages k := by
  have hcredit : ∀ n net', IsHandle n.suffix → n.suffix ∈ data.ledger.keys →
      creditedWages n (net', data) = [data.ledger.wages n.suffix] := by
    intro n net' hn hkey
    obtain ⟨c, hc⟩ := (mem_ledger_keys wf).mp hkey
    have hlookup : data.importanceChanges.lookup n.suffix = .ok (some c) := by
      rw [← hc]
      exact HandleTrie.lookup_eq wf.trie (wf.trie_size.symm ▸ hn)
    have hwages : data.ledger.wages n.suffix = (data.changes.cell c).wages := by
      show data.change ImportanceChanges.wages n.suffix = _
      rw [StimuliData.change, HandleTrie.object, hc]
      rfl
    simp only [creditedWages, hlookup, hwages]
  obtain ⟨net', handles, hrun, -, hgraph, hnd, hnodes⟩ :=
    consolidate_notes creditedWages s wf hkeys (f := fun k => [data.ledger.wages k]) hcredit []
  refine ⟨net', _, hrun, hgraph, ?_⟩
  rw [List.nil_append, ← hnodes, List.sum_toFinset _ hnd, List.map_eq_flatMap]

end TokenSpreader

namespace HandleCount

variable {q : HandleCount} {V : Finset Key}

/-- **All of the counts are counts of the set** exactly when no handle outside of it is counted. -/
theorem sum_count_eq_total (h0 : ∀ e ∈ q.stimuli, 0 ≤ e.2.val) :
    ∑ k ∈ V, q.count k = q.total ↔ ∀ k ∈ q.named, q.count k ≠ 0 → k ∈ V := by
  have hsplit : ∑ k ∈ V, q.count k + ∑ k ∈ q.named \ V, q.count k = q.total := by
    have hsub : q.named ⊆ V ∪ q.named := subset_union_right
    rw [← sum_count_eq hsub, ← union_sdiff_self_eq_union, sum_union disjoint_sdiff]
  have hzero : ∑ k ∈ q.named \ V, q.count k = 0 ↔ ∀ k ∈ q.named \ V, q.count k = 0 :=
    sum_eq_zero_iff_of_nonneg fun k _ => count_nonneg h0 k
  constructor
  · intro hsum k hk hne
    by_contra hV
    refine hne (hzero.mp ?_ k (mem_sdiff.mpr ⟨hk, hV⟩))
    omega
  · intro hall
    have hrest : ∑ k ∈ q.named \ V, q.count k = 0 := by
      refine hzero.mpr fun k hk => ?_
      by_contra hne
      exact (mem_sdiff.mp hk).2 (hall k (mem_sdiff.mp hk).1 hne)
    omega

end HandleCount

namespace HebbianNetwork

open TokenSpreader

variable {net : HebbianNetwork} {q : HandleCount}

/--
**When every token taken is paid out.**

On a network that complete requests have led to, and for a request of handles whose `SUM` is the
positive sum of its counts, the wages credited are the rents and the tokens taken if and only if
there was nothing to take or every handle with a count is a node.

The wages credited are what the second traversal adds to what the nodes hold and set aside, where
it takes the rents from them.
-/
theorem wages_paid_iff (h : net.Reachable) (hb : q.Balanced) (hn : ∀ k ∈ q.named, IsHandle k)
    (h0 : ∀ e ∈ q.stimuli, 0 ≤ e.2.val) :
    ∃ data₁ tokens net₁ data₂ wages net₂,
      collectRentPhase net = .ok data₁ net ∧
      alienateTokens net = .ok tokens net₁ ∧
      distributeWagesPhase q data₁ net = .ok data₂ net₁ ∧
      visitNodes true (noting creditedWages consolidateRentAndWages) (data₂, []) net₁
        = .ok (data₂, wages) net₂ ∧
      consolidatePhase data₂ net₁ = .ok data₂ net₂ ∧
      net₂.graph.held + net₂.graph.setAside = net.graph.held - data₁.totalRent + wages.sum ∧
      (wages.sum = data₁.totalRent + tokens ↔
        net.graph.toDistribute rates = 0 ∨
          ∀ k ∈ q.named, q.count k ≠ 0 → k ∈ net.graph.nodes) := by
  have s := h.sound
  obtain ⟨data₁, hrun₁, wf₁, hledger₁⟩ := collectRentPhase_simulates s
  obtain ⟨data₂, net₁, hrun₂, wf₂, s₁, hgraph₁, hkeys, hledger₂⟩ :=
    distributeWagesPhase_alone s wf₁ hledger₁ (hb.valid hn)
  obtain ⟨net₂, wages, hrun₃, hgraph₂, hwages⟩ := consolidate_wages s₁ wf₂ hkeys
  have hphase : consolidatePhase data₂ net₁ = .ok data₂ net₂ := by
    unfold consolidatePhase
    rw [visitNodes_erase (noting_erase creditedWages consolidateRentAndWages) true data₂ [],
      NetM.bind_ok hrun₃]
    rfl
  have hrent : data₁.totalRent = ∑ k ∈ net.graph.nodes, rates.rent * net.graph.importance k :=
    congrArg Ledger.totalRent hledger₁
  refine ⟨data₁, net.tokensToDistribute, net₁, data₂, wages, net₂, hrun₁,
    alienateTokens_of_distributeWagesPhase hrun₂, hrun₂, hrun₃, hphase, ?_, ?_⟩
  · have hrents : ∑ k ∈ net₁.graph.nodes, data₂.ledger.rent k = data₁.totalRent := by
      rw [hledger₂, hrent, hgraph₁]
      rfl
    have hheld : net₁.graph.held = net.graph.held := by
      rw [hgraph₁]
      rfl
    rw [hgraph₂, Graph.held_add_setAside_consolidate, hrents, hheld, hwages]
  -- every node gets the part of the tokens that its count is of all counts
  have htake : data₁.totalRent + net.tokensToDistribute = net.graph.toDistribute rates := by
    rw [hrent, add_comm]
    rfl
  have hsum : wages.sum
      = ((∑ k ∈ net.graph.nodes, q.count k : Int) : ℚ) / q.totalWages * net.graph.toDistribute rates := by
    have hledger : data₂.ledger.wages = fun k => 0 + q.boost k * net.graph.toDistribute rates := by
      rw [hledger₂]
      rfl
    rw [hwages, hledger, hgraph₁, ← HandleCount.sum_boost, sum_mul]
    simp only [zero_add]
    rfl
  rw [htake, hsum, hb.totalWages_eq, mul_left_eq_self₀, div_eq_one_iff_eq hb.total_ne_zero,
    Int.cast_inj, or_comm, HandleCount.sum_count_eq_total h0]

/-- `ab`, then a stimulus of `a`, where a letter stands for the handle made of it. -/
theorem wages_paid_iff_ab :
    ∃ data₁ tokens net₁ data₂ wages net₂,
      collectRentPhase pairNetwork = .ok data₁ pairNetwork ∧
      alienateTokens pairNetwork = .ok tokens net₁ ∧
      distributeWagesPhase stimulusOfA data₁ pairNetwork = .ok data₂ net₁ ∧
      visitNodes true (noting creditedWages consolidateRentAndWages) (data₂, []) net₁
        = .ok (data₂, wages) net₂ ∧
      consolidatePhase data₂ net₁ = .ok data₂ net₂ ∧
      net₂.graph.held + net₂.graph.setAside
        = pairNetwork.graph.held - data₁.totalRent + wages.sum ∧
      (wages.sum = data₁.totalRent + tokens ↔
        pairNetwork.graph.toDistribute rates = 0 ∨
          ∀ k ∈ stimulusOfA.named, stimulusOfA.count k ≠ 0 → k ∈ pairNetwork.graph.nodes) :=
  wages_paid_iff pairNetwork_reachable (by decide +kernel) (by decide +kernel) (by decide +kernel)

/-- A stimulus of `a` on a new network: the token is taken and nobody is paid. -/
theorem wages_unpaid_new :
    new.Reachable ∧ stimulusOfA.Balanced ∧ (∀ k ∈ stimulusOfA.named, IsHandle k) ∧
    (∀ e ∈ stimulusOfA.stimuli, 0 ≤ e.2.val) ∧
    ∃ data₁ tokens net₁ data₂ wages net₂,
      collectRentPhase new = .ok data₁ new ∧
      alienateTokens new = .ok tokens net₁ ∧
      distributeWagesPhase stimulusOfA data₁ new = .ok data₂ net₁ ∧
      visitNodes true (noting creditedWages consolidateRentAndWages) (data₂, []) net₁
        = .ok (data₂, wages) net₂ ∧
      net₂.graph.held + net₂.graph.setAside = 0 ∧
      wages.sum = 0 ∧ data₁.totalRent + tokens = 1 :=
  ⟨⟨[], by simp, rfl⟩, by decide +kernel, by decide +kernel, by decide +kernel,
    _, _, _, _, _, _, rfl, rfl, rfl, rfl, by decide +kernel, rfl, by decide +kernel⟩

end HebbianNetwork

/-! ## The divisors -/

namespace TokenSpreader

open HebbianNetwork

variable {net net' : HebbianNetwork} {data : StimuliData} {n : TrieNode Nat} {k : Key} {a e : Nat}
  {seen : Finset Key} {st : HebbianNetwork × StimuliData}

theorem sumWeightsDivisors_eq (m : Moved net net') (ends : net.Ends) (ha : net.nodeRef k = some a)
    (hv : n.value = some e) (he : net.edgeRef k n.suffix = some e) (data : StimuliData) :
    sumWeightsDivisors n (net', data) = [((net.graph.count k).toNat : ℚ)] := by
  have ha' : net'.nodeRef k = some a := (congrFun m.nodeRef k).trans ha
  have hend : (net'.edge e).node1 = some a := by
    rw [edge_eq m.edgeObjects, ends.node1 k n.suffix e he, ha]
  have hcount : (net'.node a).count = net.graph.count k := by rw [← graph_count ha', m.count]
  unfold sumWeightsDivisors
  simp only [hv, Option.bind_some, hend, hcount]

/-- To add up the weights divides by the count of the node. -/
theorem sumWeightsNoting_loop (data : StimuliData) (m : Moved net net') (s : net.Sound)
    (ha : net.nodeRef k = some a)
    (hcount : ∀ h ∈ net.graph.neighbors k, net.graph.count k ≠ 0) (h0 : data.sumWeights = 0)
    (notes : List ℚ) :
    ∃ extra, (net.node a).neighbors.traverse true (noting sumWeightsDivisors sumWeights)
        (net', data, notes)
      = .ok (net', { data with sumWeights := net.graph.sumWeights k }, notes ++ extra) ∧
        ∀ d ∈ extra, d ≠ 0 := by
  have hn : net.graph.neighbors k = (net.node a).neighbors.keySet := nodeField_of_ref ha
  have hstart : Summed net net' data k ∅ (net', data) := by
    unfold Summed
    rw [sum_empty, ← h0]
  obtain ⟨net₁, data₁, extra, hrun, hI, hextra⟩ := traverse_noting (P := fun d => d ≠ 0)
    sumWeightsDivisors sumWeights (s.wf.neighbors k a ha) hstart
    (fun x e seen st hv he hns hI => ⟨sumWeights_step m s ha hv he hns hI, by
      obtain rfl := hI
      have hedge : net.edgeRef k x.suffix = some e := by rw [edgeRef_of_ref ha, he]
      rw [sumWeightsDivisors_eq m s.ends ha hv hedge]
      have hc := hcount _ (s.wf.mem_neighbors.mpr ⟨e, hedge⟩)
      exact List.forall_mem_singleton.mpr (toNat_cast_eq_zero.not.mpr hc)⟩) notes
  obtain ⟨rfl, rfl⟩ : net₁ = net' ∧ data₁ = { data with sumWeights := net.graph.sumWeights k } := by
    rw [Graph.sumWeights, hn]
    exact Prod.mk.inj hI
  exact ⟨extra, hrun, hextra⟩

/-- To deliver divides by the count of the node and by the weights that have been added up. -/
theorem deliverNoting_loop (data : StimuliData) (m : Moved net net') (s : net.Sound)
    (ha : net.nodeRef k = some a)
    (hcount : ∀ h ∈ net.graph.neighbors k, net.graph.count k ≠ 0 ∧ net.graph.edgeCount k h ≠ 0)
    (hsum : data.sumWeights = net.graph.sumWeights k) (notes : List ℚ) :
    ∃ net'' data' extra, (net.node a).neighbors.traverse true (noting deliverDivisors
        deliverStimulus) (net', data, notes) = .ok (net'', data', notes ++ extra) ∧
      ∀ d ∈ extra, d ≠ 0 := by
  obtain ⟨net₁, data₁, extra, hrun, -, hextra⟩ := traverse_noting (P := fun d => d ≠ 0)
    deliverDivisors deliverStimulus (s.wf.neighbors k a ha) (Delivered.start m)
    (fun x e seen st hv he hns hI => ⟨deliverStimulus_step s ha hsum hv he hns hI, by
      obtain ⟨net₁, data₁⟩ := st
      obtain rfl : data₁ = data := hI.same
      have hedge : net.edgeRef k x.suffix = some e := by rw [edgeRef_of_ref ha, he]
      have hmem := s.wf.mem_neighbors.mpr ⟨e, hedge⟩
      obtain ⟨hc, hec⟩ := hcount _ hmem
      intro d hd
      rcases List.mem_append.mp hd with hd | hd
      · rw [sumWeightsDivisors_eq hI.moved s.ends ha hv hedge, List.mem_singleton] at hd
        exact hd ▸ toNat_cast_eq_zero.not.mpr hc
      · rw [List.mem_singleton.mp hd, hsum]
        exact Graph.sumWeights_ne_zero.mpr ⟨hc, _, hmem, hec⟩⟩) notes
  exact ⟨net₁, data₁, extra, hrun, hextra⟩

/-- The visit of a node divides by nothing that is zero, if its edges have counts. -/
theorem consolidateStimulusNoting_step (s : net.Sound)
    (hcount : ∀ k h, h ∈ net.graph.neighbors k →
      net.graph.count k ≠ 0 ∧ net.graph.edgeCount k h ≠ 0)
    (hv : n.value = some a) (ha : net.nodeRef n.suffix = some a) (hns : n.suffix ∉ seen)
    (hI : Spread net seen st) (notes : List ℚ) :
    ∃ st' extra, consolidateStimulusNoting n (st.1, st.2, notes)
        = .ok (false, st'.1, st'.2, notes ++ extra) ∧
      Spread net (insert n.suffix seen) st' ∧ ∀ d ∈ extra, d ≠ 0 := by
  obtain ⟨net₁, data⟩ := st
  have m : Moved net net₁ := hI.moved
  have hneigh : (net₁.node a).neighbors = (net.node a).neighbors := m.neighbors a
  let data₁ : StimuliData := { data with toSpread := (net₁.node a).stimuliToSpread, sumWeights := 0 }
  let data₂ : StimuliData := { data₁ with sumWeights := net.graph.sumWeights n.suffix }
  obtain ⟨extra₁, hsum, hextra₁⟩ := sumWeightsNoting_loop data₁ m s ha
    (fun h hh => (hcount _ h hh).1) rfl notes
  obtain ⟨net₂, data₃, extra₂, hdel, hextra₂⟩ := deliverNoting_loop data₂ m s ha
    (hcount n.suffix) rfl (notes ++ extra₁)
  have hrun : consolidateStimulusNoting n (net₁, data, notes)
      = .ok (false, net₂.modifyNode a fun x => { x with stimuliToSpread := 0 }, data₃,
        notes ++ (extra₁ ++ extra₂)) := by
    rw [← List.append_assoc]
    unfold consolidateStimulusNoting
    simp only [hv, deref, bind, Except.bind, hneigh, data₁, data₂, hsum, hdel]
  obtain ⟨st', hvisit, hI'⟩ := consolidateStimulus_step s hv ha hns hI
  have herase := consolidateStimulusNoting_erase n (net₁, data, notes)
  rw [hrun] at herase
  have hsame : (false, st') = (false, bare (net₂.modifyNode a fun x =>
      { x with stimuliToSpread := 0 }, data₃, notes ++ (extra₁ ++ extra₂))) :=
    Except.ok.inj (hvisit.symm.trans herase)
  obtain ⟨-, rfl⟩ := Prod.mk.inj hsame
  refine ⟨_, extra₁ ++ extra₂, hrun, hI', fun d hd => ?_⟩
  rcases List.mem_append.mp hd with hd | hd
  · exact hextra₁ d hd
  · exact hextra₂ d hd

/-- The third traversal divides by nothing that is zero, if all edges have counts. -/
theorem consolidateStimulusNoting_loop (s : net.Sound) (data : StimuliData)
    (hcount : ∀ k h, h ∈ net.graph.neighbors k →
      net.graph.count k ≠ 0 ∧ net.graph.edgeCount k h ≠ 0) (notes : List ℚ) :
    ∃ data' extra net', visitNodes true consolidateStimulusNoting (data, notes) net
        = .ok (data', notes ++ extra) net' ∧ ∀ d ∈ extra, d ≠ 0 := by
  obtain ⟨⟨net', data', notes'⟩, hrun, -, extra, hextra, hne⟩ := traverse_induct s.wf.nodes true
    consolidateStimulusNoting (net, data, notes)
    (fun seen st => Spread net seen (bare st) ∧
      ∃ extra, st.2.2 = notes ++ extra ∧ ∀ d ∈ extra, d ≠ 0)
    ⟨Spread.start s, [], by simp, by simp⟩
    (by
      rintro n a seen ⟨net₁, data₁, notes₁⟩ hv ha hns ⟨hI, extra, hextra, hne⟩
      obtain rfl : notes₁ = notes ++ extra := hextra
      obtain ⟨st', extra', hvisit, hI', hne'⟩ :=
        consolidateStimulusNoting_step s hcount hv ha hns hI (notes ++ extra)
      refine ⟨_, hvisit, hI', extra ++ extra', List.append_assoc _ _ _, fun d hd => ?_⟩
      rcases List.mem_append.mp hd with hd | hd
      · exact hne d hd
      · exact hne' d hd)
  obtain rfl : notes' = notes ++ extra := hextra
  exact ⟨data', extra, net', visitNodes_ok hrun, hne⟩

end TokenSpreader

/-! ## When the largest arity is 0 -/

namespace Graph

variable {κ : Type*} [DecidableEq κ] {g : Graph κ} {a b : κ}

/-- The largest arity is positive once there is an edge, whatever the counters do later. -/
structure Linked (g : Graph κ) : Prop where
  arity_le : ∀ a, g.arity a ≤ g.largestArity
  edgeCount : ∀ a b, b ∉ g.neighbors a → g.edgeCount a b = 0
  largestArity : g.largestArity ≠ 0 ↔ ∃ a b, b ∈ g.neighbors a

theorem Linked.addEdge (h : Linked g) (p : κ × κ) : Linked (g.addEdge p) := by
  obtain ⟨x, y⟩ := p
  refine ⟨addEdge_arity_le h.arity_le, fun a b hb => ?_, ?_⟩
  · rw [addEdge_neighbors, not_or] at hb
    rw [addEdge_edgeCount, h.edgeCount a b hb.1, if_neg hb.2]
    rfl
  · have hlinked : ∃ a b, b ∈ (g.addEdge (x, y)).neighbors a :=
      ⟨x, y, addEdge_neighbors g (x, y) |>.mpr (.inr rfl)⟩
    refine iff_of_true ?_ hlinked
    rw [addEdge_largestArity]
    by_cases h0 : g.largestArity = 0
    · -- without edges the counter is new and the arity is 0
      have hnone : y ∉ g.neighbors x := fun hy => h.largestArity.mpr ⟨x, y, hy⟩ h0
      have harity : g.arity x = 0 := UInt32.le_zero_iff.mp (h0 ▸ h.arity_le x)
      rw [h.edgeCount x y hnone, harity, h0]
      decide
    · split
      · rename_i hlt
        exact UInt32.pos_iff_ne_zero.mp (UInt32.lt_of_le_of_lt UInt32.zero_le hlt.2)
      · exact h0

theorem Linked.process {g : Graph Key} (h : Linked g) (r : Request) : Linked (g.process r) := by
  cases r with
  | correlation l =>
    exact correlation_induct (P := Linked) (fun _ _ h => ⟨h.arity_le, h.edgeCount, h.largestArity⟩)
      (fun _ p h => h.addEdge p) l h
  | stimulus q => exact ⟨h.arity_le, h.edgeCount, h.largestArity⟩

omit [DecidableEq κ] in
theorem linked_empty : Linked (empty : Graph κ) where
  arity_le _ := UInt32.le_rfl
  edgeCount _ _ _ := rfl
  largestArity := by simp [empty]

/-- The handles of the lists are the nodes. -/
theorem process_nodes (requests : List Request) : ∀ (g : Graph Key) (k : Key),
    k ∈ (requests.foldl process g).nodes ↔ k ∈ g.nodes ∨ ∃ l ∈ handleLists requests, k ∈ l := by
  induction requests with
  | nil =>
    intro g k
    simp [handleLists]
  | cons r rs ih =>
    intro g k
    rw [List.foldl_cons, ih]
    cases r with
    | stimulus q => exact Iff.rfl
    | correlation l =>
      have hlists : handleLists (.correlation l :: rs) = l :: handleLists rs := rfl
      have hnodes : k ∈ (g.process (.correlation l)).nodes ↔ k ∈ g.nodes ∨ k ∈ l := by
        show k ∈ ((edgePairs l).foldl Graph.addEdge (l.foldl addNode g)).nodes ↔ _
        rw [foldl_addEdge_nodes, mem_foldl_addNode]
      rw [hnodes, hlists]
      simp only [List.mem_cons, exists_eq_or_imp, or_assoc]

end Graph

namespace HebbianNetwork

open TokenSpreader

variable {net : HebbianNetwork} {requests : List Request} {q : HandleCount}

theorem largestArity_ne_zero_iff (h : net.Reachable) :
    net.graph.largestArity ≠ 0 ↔ ∃ a b, b ∈ net.graph.neighbors a :=
  (h.invariant Graph.Linked Graph.linked_empty fun _ r hg => hg.process r).largestArity

/-- No list has named a handle, or one has named two. -/
def Paired (lists : List (List Key)) : Prop :=
  (∀ l ∈ lists, l = []) ∨ ∃ l ∈ lists, ∃ a ∈ l, ∃ b ∈ l, a ≠ b

theorem paired_iff (hr : ∀ r ∈ requests, r.Valid) (hrun : run process new requests = some net) :
    Paired (handleLists requests) ↔ net.graph.nodes = ∅ ∨ net.graph.largestArity ≠ 0 := by
  have hg := (run_new_eq hr hrun).2
  refine or_congr ?_ ?_
  · have hnodes : ∀ k, k ∈ net.graph.nodes ↔ ∃ l ∈ handleLists requests, k ∈ l := by
      intro k
      rw [hg, Graph.process_nodes]
      simp [Graph.empty]
    simp only [eq_empty_iff_forall_notMem, hnodes, List.eq_nil_iff_forall_not_mem]
    push Not
    exact ⟨fun h k l hl => h l hl k, fun h l hl k => h k l hl⟩
  · rw [largestArity_ne_zero_iff ⟨requests, hr, hrun⟩]
    have hneighbors : ∀ a b, b ∈ net.graph.neighbors a ↔
        a ≠ b ∧ ∃ l ∈ handleLists requests, a ∈ l ∧ b ∈ l := by
      intro a b
      rw [hg, (Graph.process_counts requests Graph.empty a b).2.2]
      simp [Graph.empty]
    simp only [hneighbors]
    constructor
    · rintro ⟨l, hl, a, ha, b, hb, hab⟩
      exact ⟨a, b, hab, l, hl, ha, hb⟩
    · rintro ⟨a, b, hab, l, hl, ha, hb⟩
      exact ⟨l, hl, a, ha, b, hb, hab⟩

/--
**When nothing is divided by zero.**

On a network that complete requests have led to with counts below `2 ^ 32`, and for a request of
handles whose `SUM` is the positive sum of its counts, every divisor is nonzero if and only if no
correlation request has named a handle yet or one has named two different handles.
-/
theorem divisors_nonzero_iff (hr : ∀ r ∈ requests, r.Valid)
    (hrun : run process new requests = some net) (hc : CountsBelow requests) (hb : q.Balanced)
    (hn : ∀ k ∈ q.named, IsHandle k) :
    ∃ divisors net', spreadStimuliNoting q net = .ok divisors net' ∧
      ((∀ d ∈ divisors, d ≠ 0) ↔ Paired (handleLists requests)) := by
  have s := (run_new_eq hr hrun).1
  obtain ⟨data₁, hrun₁, wf₁, hledger₁⟩ := collectRentPhase_simulates s
  obtain ⟨data₂, net₂, hrun₂, wf₂, s₂, hgraph₂, hkeys, hledger₂⟩ :=
    distributeWagesPhase_alone s wf₁ hledger₁ (hb.valid hn)
  obtain ⟨net₃, handles, hrun₃, m, -, -, hnodes⟩ := consolidate_notes consolidateDivisors
    s₂ wf₂ hkeys (f := fun _ => [(data₂.largestArity.toNat : ℚ)]) (fun _ _ _ _ => rfl)
    (distributeDivisors q)
  have hcounts : ∀ k h, h ∈ net₃.graph.neighbors k →
      net₃.graph.count k ≠ 0 ∧ net₃.graph.edgeCount k h ≠ 0 := by
    rw [m.graph, hgraph₂]
    exact fun k h hh => counts_pos hr hrun hc hh
  obtain ⟨data₄, extra, net₄, hrun₄, hextra⟩ :=
    consolidateStimulusNoting_loop m.sound data₂ hcounts
      (distributeDivisors q ++ handles.flatMap fun _ => [(data₂.largestArity.toNat : ℚ)])
  refine ⟨distributeDivisors q ++ (handles.flatMap fun _ => [(data₂.largestArity.toNat : ℚ)])
    ++ extra, net₄, ?_, ?_⟩
  · unfold spreadStimuliNoting
    rw [NetM.bind_ok hrun₁, NetM.bind_ok hrun₂, NetM.bind_ok hrun₃]
    exact NetM.bind_ok hrun₄
  · have hwages : ∀ d ∈ distributeDivisors q, d ≠ 0 := by
      intro d hd
      obtain ⟨-, -, rfl⟩ := List.mem_map.mp hd
      exact hb.totalWages_eq.trans_ne hb.total_ne_zero
    have harity : data₂.largestArity = net.graph.largestArity := by
      have hledger : data₂.ledger.largestArity = net.graph.largestArity := by
        rw [hledger₂]
        rfl
      exact hledger
    have hempty : net.graph.nodes = ∅ ↔ handles = [] := by
      rw [← List.toFinset_eq_empty_iff, hnodes, hgraph₂]
      rfl
    have hcast : (data₂.largestArity.toNat : ℚ) ≠ 0 ↔ net.graph.largestArity ≠ 0 := by
      rw [harity]
      exact toNat_cast_eq_zero.not
    rw [paired_iff hr hrun, hempty, ← hcast]
    constructor
    · intro h
      cases handles with
      | nil => exact .inl rfl
      | cons k handles => exact .inr (h _ (by simp))
    · rintro h d hd
      simp only [List.mem_append, List.mem_flatMap, List.mem_singleton] at hd
      rcases hd with (hd | ⟨k, hk, rfl⟩) | hd
      · exact hwages d hd
      · exact h.resolve_left (List.ne_nil_of_mem hk)
      · exact hextra d hd

/-- `ab`, then a stimulus of `a`, where a letter stands for the handle made of it. -/
theorem divisors_nonzero_iff_ab :
    ∃ divisors net', spreadStimuliNoting stimulusOfA pairNetwork = .ok divisors net' ∧
      ((∀ d ∈ divisors, d ≠ 0) ↔
        Paired (handleLists [.correlation [handleOf 97, handleOf 98]])) :=
  divisors_nonzero_iff pairRequests_valid run_pairNetwork
    (countsBelow_of_lengths (by decide) (by decide))
    (by decide +kernel) (by decide +kernel)

/-- `a`, then a stimulus of `a`: the arity 0 of the only node is divided by the largest arity 0. -/
theorem divisor_zero_a :
    ∃ net, (∀ r ∈ [Request.correlation [handleOf 97]], r.Valid) ∧
      run process new [.correlation [handleOf 97]] = some net ∧
      CountsBelow [.correlation [handleOf 97]] ∧ stimulusOfA.Balanced ∧
      (∀ k ∈ stimulusOfA.named, IsHandle k) ∧
      ∃ divisors net', spreadStimuliNoting stimulusOfA net = .ok divisors net' ∧
        (0 : ℚ) ∈ divisors := by
  have hr : ∀ r ∈ [Request.correlation [handleOf 97]], r.Valid := by
    intro r hr
    obtain rfl := List.mem_singleton.mp hr
    exact (by decide +kernel : ∀ k ∈ [handleOf 97], IsHandle k)
  exact ⟨_, hr, rfl, countsBelow_of_lengths (by decide) (by decide), by decide +kernel,
    by decide +kernel, _, _, rfl, by decide +kernel⟩

end HebbianNetwork

end AttentionBroker
