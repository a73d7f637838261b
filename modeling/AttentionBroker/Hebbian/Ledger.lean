import Mathlib.Data.Rat.Cast.Order
import Mathlib.Tactic.Ring
import AttentionBroker.Hebbian.Refinement
import AttentionBroker.Hebbian.Spreader

/-!
# Rents and wages

The private trie of a call stands for a `Ledger`. The first traversal notes the rents in it
and `distributeWagesPhase` the wages. Both are simulated by the function of `Graph` that
does the same for all nodes at once.
-/

namespace AttentionBroker

open Infra Finset

namespace TokenSpreader

/-- The rates of the broker. -/
def rates : Rates where
  rent := AttentionBrokerServer.rentRate
  lowerbound := AttentionBrokerServer.spreadingRateLowerbound
  rangeSize :=
    AttentionBrokerServer.spreadingRateUpperbound - AttentionBrokerServer.spreadingRateLowerbound

end TokenSpreader

open TokenSpreader

/-! ## The private trie -/

namespace StimuliData

variable {data : StimuliData} {k : Key}

/-- A call whose trie is well formed and whose rates are those of the broker. -/
structure Wf (data : StimuliData) : Prop where
  trie : data.importanceChanges.Wf
  trie_size : data.importanceChanges.keySize = handleHashSize - 1
  stores : data.importanceChanges.Stores data.changes
  rates : TokenSpreader.rates
    = { rent := data.rentRate, lowerbound := data.spreadingRateLowerbound,
        rangeSize := data.spreadingRateRangeSize }

/-- A field of the changes of a handle, or 0. -/
def change (data : StimuliData) (f : ImportanceChanges → ℚ) (k : Key) : ℚ :=
  ((data.importanceChanges.object data.changes k).map f).getD 0

/-- The ledger a call stands for. -/
def ledger (data : StimuliData) : Ledger Key where
  keys := data.importanceChanges.keySet
  rent := data.change ImportanceChanges.rent
  wages := data.change ImportanceChanges.wages
  totalRent := data.totalRent
  largestArity := data.largestArity

theorem Wf.spreadingRate (wf : data.Wf) (arity : UInt32) :
    data.spreadingRate arity = TokenSpreader.rates.spreading data.largestArity arity := by
  rw [wf.rates]
  rfl

theorem wf_init (net : HebbianNetwork) : (init net).Wf where
  trie := HandleTrie.new_wf
  trie_size := rfl
  stores := ⟨fun k a h => absurd ((HandleTrie.find_new k).symm.trans h) (by simp),
    fun k _ a h => absurd ((HandleTrie.find_new k).symm.trans h) (by simp)⟩
  rates := rfl

theorem change_init (net : HebbianNetwork) (f : ImportanceChanges → ℚ) (k : Key) :
    (init net).change f k = 0 := by
  have hk : (init net).importanceChanges.object (init net).changes k = none :=
    HandleTrie.object_eq_none.mpr (HandleTrie.find_new k)
  rw [change, hk]
  rfl

theorem keys_init (net : HebbianNetwork) : (init net).ledger.keys = ∅ := by
  show (newHandleTrie : HandleTrie Nat).keys.toFinset = ∅
  rw [newHandleTrie, HandleTrie.keys_new]
  rfl

/-- `data'` is `data` with one more change noted for `k`. -/
structure Noted (data : StimuliData) (k : Key) (rent wages : ℚ) (data' : StimuliData) : Prop where
  wf : data'.Wf
  keys : data'.ledger.keys = insert k data.ledger.keys
  rent : data'.ledger.rent = Function.update data.ledger.rent k (data.ledger.rent k + rent)
  wages : data'.ledger.wages = Function.update data.ledger.wages k (data.ledger.wages k + wages)
  totalRent : data'.totalRent = data.totalRent
  largestArity : data'.largestArity = data.largestArity

/-- **Noting a change on a handle never fails and adds to what is noted.** -/
theorem insertChanges_spec (wf : data.Wf) (hk : IsHandle k) (rent wages : ℚ) :
    ∃ data', data.insertChanges k rent wages = .ok data' ∧ Noted data k rent wages data' := by
  obtain ⟨r, trie, changes, hrun, hi⟩ :=
    HandleTrie.insertNew_spec ImportanceChanges.merge wf.trie (wf.trie_size.symm ▸ hk)
      { rent := rent, wages := wages } fun e he => wf.stores.lt k e he
  let data' : StimuliData := { data with importanceChanges := trie, changes := changes }
  have hchange : ∀ (f : ImportanceChanges → ℚ) (x : ℚ),
      (∀ y : ImportanceChanges, f (y.merge { rent := rent, wages := wages }) = f y + x) →
      f { rent := rent, wages := wages } = x →
      data'.change f = Function.update (data.change f) k (data.change f k + x) := by
    intro f x hmerge hnew
    funext k'
    rw [change, hi.object wf.stores, change]
    by_cases hkk : k' = k
    · subst hkk
      rw [if_pos rfl, Function.update_self]
      cases ho : data.importanceChanges.object data.changes k' with
      | none => simp [hnew]
      | some y => simp [hmerge]
    · rw [if_neg hkk, Function.update_of_ne hkk, change]
  refine ⟨data', ?_, ?_⟩
  · unfold insertChanges
    simp only [bind, Except.bind]
    rw [hrun]
  · exact
      { wf := ⟨hi.wf, hi.keySize.trans wf.trie_size, hi.stores wf.stores, wf.rates⟩
        keys := by
          ext k'
          rw [mem_insert]
          show k' ∈ trie.keySet ↔ k' = k ∨ k' ∈ data.importanceChanges.keySet
          rw [hi.wf.mem_keySet, wf.trie.mem_keySet]
          by_cases hkk : k' = k
          · simp [hkk, hi.find_self]
          · simp [hkk, hi.find_ne hkk]
        rent := hchange ImportanceChanges.rent rent (fun _ => rfl) rfl
        wages := hchange ImportanceChanges.wages wages (fun _ => rfl) rfl
        totalRent := rfl
        largestArity := rfl }

end StimuliData

/-! ## Rent -/

namespace TokenSpreader

open HebbianNetwork

variable {net net' : HebbianNetwork} {data : StimuliData} {k h : Key} {a b e : Nat}

theorem visitNodesIn_ok {o : HandleTrie.Order Nat}
    {visit : TrieNode Nat → HebbianNetwork × StimuliData → Visit} {data' : StimuliData}
    (hrun : net.nodes.traverseIn o visit (net, data) = .ok (net', data')) :
    visitNodesIn o visit data net = .ok data' net' := by
  unfold visitNodesIn
  rw [hrun]

/-- `visit_nodes` visits in the order of the keys. -/
theorem visitNodes_keyOrder (s : net.Sound) (locked : Bool)
    (visit : TrieNode Nat → HebbianNetwork × StimuliData → Visit) (data : StimuliData) :
    visitNodes locked visit data net = visitNodesIn HandleTrie.keyOrder visit data net := by
  unfold visitNodes
  rw [HandleTrie.traverse_keyOrder s.wf.nodes]
  rfl

theorem visitNodes_ok {δ : Type} {keepRootLocked : Bool} {data data' : δ}
    {visit : TrieNode Nat → HebbianNetwork × δ → Except Fault (Bool × HebbianNetwork × δ)}
    (hrun : net.nodes.traverse keepRootLocked visit (net, data) = .ok (net', data')) :
    visitNodes keepRootLocked visit data net = .ok data' net' := by
  unfold visitNodes
  rw [hrun]

/-- The invariant of the first traversal: the rent of the nodes seen is noted. -/
structure RentNoted (net : HebbianNetwork) (seen : Finset Key) (st : HebbianNetwork × StimuliData) :
    Prop where
  same : st.1 = net
  wf : st.2.Wf
  keys : st.2.ledger.keys = seen
  rent : ∀ k, st.2.ledger.rent k = if k ∈ seen then rates.rent * net.graph.importance k else 0
  wages : ∀ k, st.2.ledger.wages k = 0
  totalRent : st.2.totalRent = ∑ k ∈ seen, rates.rent * net.graph.importance k
  largestArity : st.2.largestArity = net.largestArity

theorem rentNoted_init (net : HebbianNetwork) : RentNoted net ∅ (net, StimuliData.init net) where
  same := rfl
  wf := StimuliData.wf_init net
  keys := StimuliData.keys_init net
  rent k := by rw [if_neg (notMem_empty k)]; exact StimuliData.change_init net _ k
  wages := StimuliData.change_init net _
  totalRent := by rw [sum_empty]; rfl
  largestArity := rfl

theorem collectRent_step (s : net.Sound) {n : TrieNode Nat} {seen : Finset Key}
    {st : HebbianNetwork × StimuliData} (hv : n.value = some a)
    (ha : net.nodeRef n.suffix = some a) (hns : n.suffix ∉ seen) (hI : RentNoted net seen st) :
    ∃ st', collectRent n st = .ok (false, st') ∧ RentNoted net (insert n.suffix seen) st' := by
  obtain ⟨net', data⟩ := st
  obtain ⟨rfl, wf, hkeys, hrent, hwages, htotal, harity⟩ := hI
  have hrate : data.rentRate = rates.rent := by rw [wf.rates]
  have himp : data.rentRate * (net'.node a).importance
      = rates.rent * net'.graph.importance n.suffix := by
    rw [hrate, graph_importance ha]
  let data₁ := { data with totalRent := data.totalRent + data.rentRate * (net'.node a).importance }
  have wf₁ : data₁.Wf := ⟨wf.trie, wf.trie_size, wf.stores, wf.rates⟩
  obtain ⟨data', hins, hn⟩ := StimuliData.insertChanges_spec wf₁ (s.wf.isHandle ha)
    (data.rentRate * (net'.node a).importance) 0
  refine ⟨(net', data'), ?_, ?_⟩
  · unfold collectRent
    simp only [hv, deref, bind, Except.bind]
    rw [hins]
  · exact
      { same := rfl
        wf := hn.wf
        keys := by rw [hn.keys]; exact congrArg _ hkeys
        rent := fun k => by
          rw [hn.rent, himp]
          by_cases hk : k = n.suffix
          -- the handle has no rent yet, so the merge is an insertion
          · have h0 : data₁.ledger.rent n.suffix = 0 := (hrent n.suffix).trans (if_neg hns)
            rw [hk, Function.update_self, if_pos (mem_insert_self _ _), h0, zero_add]
          · simp only [Function.update_of_ne hk, mem_insert, hk, false_or]
            exact hrent k
        wages := fun k => by
          rw [hn.wages, add_zero, Function.update_eq_self]
          exact hwages k
        totalRent := by
          rw [hn.totalRent, sum_insert hns, ← himp, ← htotal]
          exact add_comm _ _
        largestArity := hn.largestArity.trans harity }

/-- **The first traversal notes the rent of every node and changes nothing**, in any order. -/
theorem collectRent_simulates (s : net.Sound) (o : HandleTrie.Order Nat) :
    ∃ data, visitNodesIn o collectRent (StimuliData.init net) net = .ok data net ∧ data.Wf ∧
      data.ledger = net.graph.collectRent rates := by
  obtain ⟨⟨net', data⟩, hrun, hI⟩ := traverseIn_induct s.wf.nodes o collectRent
    (net, StimuliData.init net) (RentNoted net) (rentNoted_init net)
    fun n a seen st hv hf hns hI => collectRent_step s hv hf hns hI
  obtain ⟨rfl, wf, hkeys, hrent, hwages, htotal, harity⟩ := hI
  refine ⟨data, visitNodesIn_ok hrun, wf, Ledger.ext hkeys ?_ (funext hwages) htotal harity⟩
  funext k
  refine (hrent k).trans ?_
  by_cases hk : k ∈ net'.graph.nodes
  · exact if_pos hk
  · refine (if_neg hk).trans ?_
    show 0 = rates.rent * net'.graph.importance k
    rw [s.wf.importance_eq_zero hk, mul_zero]

theorem collectRentPhase_simulates (s : net.Sound) :
    ∃ data, collectRentPhase net = .ok data net ∧ data.Wf ∧
      data.ledger = net.graph.collectRent rates := by
  obtain ⟨data, hrun, hrest⟩ := collectRent_simulates s HandleTrie.keyOrder
  exact ⟨data, (visitNodes_keyOrder s true collectRent _).trans hrun, hrest⟩

/-! ## Wages -/

/-- The handles among some entries. -/
def handlesOf (l : List (Key × Count)) : Finset Key :=
  ((l.filter fun e => e.1 ≠ sumKey).map Prod.fst).toFinset

/-- What some entries count for a handle. -/
def countIn (l : List (Key × Count)) (k : Key) : Int :=
  ((l.filter fun e => e.1 ≠ sumKey).map fun e => if e.1 = k then e.2.val else 0).sum

theorem handlesOf_cons (e : Key × Count) (l : List (Key × Count)) :
    handlesOf (e :: l) = if e.1 ≠ sumKey then insert e.1 (handlesOf l) else handlesOf l := by
  by_cases he : e.1 ≠ sumKey
  · simp [handlesOf, he]
  · simp [handlesOf, he]

theorem countIn_cons (e : Key × Count) (l : List (Key × Count)) (k : Key) :
    countIn (e :: l) k
      = (if e.1 ≠ sumKey then if e.1 = k then e.2.val else 0 else 0) + countIn l k := by
  by_cases he : e.1 ≠ sumKey
  · simp [countIn, he]
  · simp [countIn, he]

theorem Noted_pay {w : ℚ} {data' : StimuliData} (hn : data.Noted k 0 w data') :
    data'.ledger = data.ledger.pay {k} fun x => if x = k then w else 0 := by
  refine Ledger.ext ?_ ?_ ?_ hn.totalRent hn.largestArity
  · rw [hn.keys, Ledger.pay, insert_eq, union_comm]
  · rw [hn.rent, add_zero, Function.update_eq_self]
    rfl
  · rw [hn.wages]
    funext x
    by_cases hx : x = k
    · simp [Ledger.pay, hx]
    · simp [Ledger.pay, hx]

/-- **The loop of `distribute_wages` pays every handle in proportion to its counts.** -/
theorem distributeWage_loop (totalToSpread : ℚ) (totalWages : Nat) :
    ∀ (l : List (Key × Count)) (data : StimuliData), data.Wf →
      (∀ e ∈ l, e.1 ≠ sumKey → IsHandle e.1) →
      ∃ data', l.foldlM (distributeWage totalToSpread totalWages) data = .ok data' ∧ data'.Wf ∧
        data'.ledger = data.ledger.pay (handlesOf l) fun k =>
          (countIn l k : ℚ) / (totalWages : ℚ) * totalToSpread := by
  intro l
  induction l with
  | nil =>
    intro data wf _
    refine ⟨data, rfl, wf, Ledger.ext ?_ rfl ?_ rfl rfl⟩
    · simp [Ledger.pay, handlesOf]
    · funext k
      simp [Ledger.pay, countIn]
  | cons e l ih =>
    intro data wf hl
    by_cases he : e.1 ≠ sumKey
    · obtain ⟨data₁, hrun₁, hn⟩ := StimuliData.insertChanges_spec wf (hl e List.mem_cons_self he)
        0 ((e.2.val : ℚ) * totalToSpread / totalWages)
      obtain ⟨data₂, hrun₂, wf₂, hledger⟩ := ih data₁ hn.wf
        fun e' he' => hl e' (List.mem_cons_of_mem _ he')
      refine ⟨data₂, ?_, wf₂, ?_⟩
      · rw [List.foldlM_cons]
        unfold distributeWage
        simp only [if_pos he, bind, Except.bind]
        rw [hrun₁]
        exact hrun₂
      · rw [hledger, Noted_pay hn, Ledger.pay_pay, handlesOf_cons, if_pos he, insert_eq]
        refine congrArg _ (funext fun k => ?_)
        rw [countIn_cons, if_pos he]
        by_cases hk : e.1 = k
        · simp only [hk, if_true, Int.cast_add]
          ring
        · simp only [hk, Ne.symm hk, if_false, zero_add]
    · obtain ⟨data₂, hrun₂, wf₂, hledger⟩ := ih data wf
        fun e' he' => hl e' (List.mem_cons_of_mem _ he')
      refine ⟨data₂, ?_, wf₂, ?_⟩
      · rw [List.foldlM_cons]
        unfold distributeWage
        simp only [if_neg he, bind, Except.bind]
        exact hrun₂
      · rw [hledger, handlesOf_cons, if_neg he]
        refine congrArg _ (funext fun k => ?_)
        rw [countIn_cons, if_neg he, zero_add]

end TokenSpreader

namespace HandleCount

/-- The handles a request names. -/
def named (request : HandleCount) : Finset Key := handlesOf request.handleCount

/-- The count a request gives a handle, 0 for one it does not name. -/
def count (request : HandleCount) (k : Key) : Int := countIn request.handleCount k

/-- `SUM` as an `unsigned int`. -/
def totalWages (request : HandleCount) : Nat :=
  ((request.find sumKey).map fun sum => (sum.val % 2 ^ 32).toNat).getD 0

/-- What a handle gets of every token there is to spread. -/
def boost (request : HandleCount) (k : Key) : ℚ :=
  (request.count k : ℚ) / (request.totalWages : ℚ)

/-- A request that a stimulus completes on: it has a sum, and the rest are handles. -/
structure Valid (request : HandleCount) : Prop where
  sum : ∃ sum, request.find sumKey = some sum
  handles : ∀ e ∈ request.handleCount, e.1 ≠ sumKey → IsHandle e.1

end HandleCount

namespace TokenSpreader

open HebbianNetwork

variable {net net' : HebbianNetwork} {data : StimuliData} {request : HandleCount}
  {k h : Key} {a b e : Nat}

/-- **`alienate_tokens` and `distribute_wages` on a valid request.** -/
theorem distributeWagesPhase_simulates (s : net.Sound) (wf : data.Wf) (hr : request.Valid) :
    ∃ data' net', distributeWagesPhase request data net = .ok data' net' ∧ data'.Wf ∧
      net'.Sound ∧ net'.nodeRef = net.nodeRef ∧ net'.graph = net.graph.alienateTokens ∧
      data'.ledger
        = net.graph.distributeWages request.named request.boost data.ledger := by
  obtain ⟨sum, hsum⟩ := hr.sum
  obtain ⟨data', hrun, wf', hledger⟩ :=
    distributeWage_loop (net.tokensToDistribute + data.totalRent) (sum.val % 2 ^ 32).toNat
      request.handleCount data wf hr.handles
  have htotal : request.totalWages = (sum.val % 2 ^ 32).toNat := by
    rw [HandleCount.totalWages, hsum]
    rfl
  have hdist : distributeWages request (net.tokensToDistribute + data.totalRent) data
      = .ok data' := by
    unfold distributeWages
    rw [hsum]
    exact hrun
  refine ⟨data', { net with tokensToDistribute := 0 }, ?_, wf', ?_, rfl, rfl, ?_⟩
  · have htake : HebbianNetwork.alienateTokens net
        = .ok net.tokensToDistribute { net with tokensToDistribute := 0 } := rfl
    unfold distributeWagesPhase
    rw [NetM.bind_ok htake, hdist]
    rfl
  · exact ⟨⟨s.wf.nodes, s.wf.nodes_size, s.wf.stores, s.wf.neighbors, s.wf.neighbors_size,
      s.wf.edge_lt, s.wf.edge_inj⟩, ⟨s.ends.node1, s.ends.node2, s.ends.stored, s.ends.ne⟩⟩
  · rw [hledger, ← htotal]
    rfl

/-- Right after the first traversal, every node is a key of the private trie. -/
theorem distributeWagesPhase_alone (s : net.Sound) (wf : data.Wf)
    (hledger : data.ledger = net.graph.collectRent rates) (hr : request.Valid) :
    ∃ data' net', distributeWagesPhase request data net = .ok data' net' ∧ data'.Wf ∧
      net'.Sound ∧ net'.graph = net.graph.alienateTokens ∧
      net'.graph.nodes ⊆ data'.ledger.keys ∧ data'.ledger
        = net.graph.distributeWages request.named request.boost (net.graph.collectRent rates) := by
  obtain ⟨data', net', hrun, wf', s', -, hgraph, hledger'⟩ := distributeWagesPhase_simulates s wf hr
  rw [hledger] at hledger'
  refine ⟨data', net', hrun, wf', s', hgraph, ?_, hledger'⟩
  rw [hgraph, hledger']
  exact subset_union_left

end TokenSpreader

end AttentionBroker
