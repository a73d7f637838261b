import AttentionBroker.Hebbian.Ledger

/-!
# The two traversals that move importance

`Moved` says what the second and third traversal of `spreadStimuli` may change: importance
and stimuli, and nothing else. Each traversal is proved with an invariant over the handles
visited so far, and is the function of `Graph` that does the same for all nodes at once.

`consolidatePhase` is the one phase that can fail on handles. It fails exactly when a node
is not a key of the ledger.
-/

namespace AttentionBroker

open Infra Finset

/-! ## Only importance moves -/

namespace HebbianNetwork

variable {net net' : HebbianNetwork} {k h : Key} {a b e : Nat}

/-- `net'` is `net` with other importance and stimuli. -/
structure Moved (net net' : HebbianNetwork) : Prop where
  sound : net'.Sound
  nodes : net'.nodes = net.nodes
  edgeObjects : net'.edgeObjects = net.edgeObjects
  edgeRef : net'.edgeRef = net.edgeRef
  neighbors : ∀ a, (net'.node a).neighbors = (net.node a).neighbors
  graph : net'.graph
    = { net.graph with importance := net'.graph.importance, stimuli := net'.graph.stimuli }

theorem Moved.refl (s : net.Sound) : Moved net net := ⟨s, rfl, rfl, rfl, fun _ => rfl, rfl⟩

theorem Moved.trans {net₁ net₂ : HebbianNetwork} (h₁ : Moved net net₁) (h₂ : Moved net₁ net₂) :
    Moved net net₂ where
  sound := h₂.sound
  nodes := h₂.nodes.trans h₁.nodes
  edgeObjects := h₂.edgeObjects.trans h₁.edgeObjects
  edgeRef := h₂.edgeRef.trans h₁.edgeRef
  neighbors := fun a => (h₂.neighbors a).trans (h₁.neighbors a)
  graph := by rw [h₂.graph, h₁.graph]

theorem Moved.nodeRef (m : Moved net net') : net'.nodeRef = net.nodeRef := by
  funext k
  rw [HebbianNetwork.nodeRef, HebbianNetwork.nodeRef, m.nodes]

theorem Moved.count (m : Moved net net') : net'.graph.count = net.graph.count := by
  rw [m.graph]

theorem Moved.arity (m : Moved net net') : net'.graph.arity = net.graph.arity := by
  rw [m.graph]

theorem ModifiedNode.nodeField {β : Type} {f : Node → Node} (hm : ModifiedNode net k f net')
    (ha : net.nodeRef k = some a) (g : Node → β) (d : β) :
    net'.nodeField g d = Function.update (net.nodeField g d) k (g (f (net.node a))) := by
  funext k'
  rw [HebbianNetwork.nodeField, hm.nodeAt]
  by_cases hk : k' = k
  · rw [if_pos hk, hk, Function.update_self, nodeAt_of_ref ha]
    rfl
  · rw [if_neg hk, Function.update_of_ne hk, HebbianNetwork.nodeField]

/-- **Changing importance and stimuli of one node.** -/
theorem Sound.moved_modify (s : net.Sound) (ha : net.nodeRef k = some a) {f : Node → Node}
    (hf : ∀ n, (f n).neighbors = n.neighbors ∧ (f n).count = n.count ∧ (f n).arity = n.arity) :
    Moved net (net.modifyNode a f) ∧
      (net.modifyNode a f).graph.importance
        = Function.update net.graph.importance k (f (net.node a)).importance ∧
      (net.modifyNode a f).graph.stimuli
        = Function.update net.graph.stimuli k (f (net.node a)).stimuliToSpread := by
  obtain ⟨wf', hm⟩ := modifyNode_spec s.wf ha fun n => (hf n).1
  have hsame : ∀ {β : Type} (g : Node → β) (d : β), g (f (net.node a)) = g (net.node a) →
      (net.modifyNode a f).nodeField g d = net.nodeField g d := by
    intro β g d hg
    rw [hm.nodeField ha, hg, ← nodeField_of_ref (f := g) (d := d) ha]
    exact Function.update_eq_self k _
  refine ⟨⟨⟨wf', hm.ends s.ends⟩, hm.nodes, hm.edgeObjects, hm.edgeRef,
      fun b => Pool.modify_cell_proj net.nodeObjects a b f Node.neighbors fun n => (hf n).1, ?_⟩,
    hm.nodeField ha Node.importance 0, hm.nodeField ha Node.stimuliToSpread 0⟩
  refine Graph.ext rfl (hsame Node.count 0 (hf _).2.1) (hsame Node.arity 0 (hf _).2.2) rfl rfl
    (hsame (fun n => n.neighbors.keySet) ∅ (congrArg HandleTrie.keySet (hf _).1)) ?_ rfl rfl
  funext k' h'
  show ((((net.modifyNode a f).edgeRef k' h').map _).map Edge.count).getD 0 = _
  rw [hm.edgeRef]
  rfl

end HebbianNetwork

namespace TokenSpreader

open HebbianNetwork

variable {net net' : HebbianNetwork} {data : StimuliData} {request : HandleCount}
  {k h : Key} {a b e : Nat} {n : TrieNode Nat} {seen : Finset Key}
  {st : HebbianNetwork × StimuliData}

/-! ## Consolidation -/

/-- The invariant of the second traversal: the nodes seen have paid and been paid. -/
structure Consolidated (net : HebbianNetwork) (data : StimuliData) (seen : Finset Key)
    (st : HebbianNetwork × StimuliData) : Prop where
  same : st.2 = data
  moved : Moved net st.1
  importance : ∀ k, st.1.graph.importance k
    = if k ∈ seen then net.graph.settled data.ledger k - net.graph.toSpread rates data.ledger k
      else net.graph.importance k
  stimuli : ∀ k, st.1.graph.stimuli k
    = if k ∈ seen then net.graph.toSpread rates data.ledger k else net.graph.stimuli k

/-- When every node is seen, each has paid and been paid. -/
theorem Consolidated.graph (hI : Consolidated net data net.graph.nodes st) :
    st.1.graph = net.graph.consolidate rates data.ledger := by
  rw [hI.moved.graph]
  exact Graph.ext rfl rfl rfl (funext hI.importance) (funext hI.stimuli) rfl rfl rfl rfl

theorem mem_ledger_keys (wf : data.Wf) :
    k ∈ data.ledger.keys ↔ ∃ c, data.importanceChanges.find k = some c :=
  wf.trie.mem_keySet

theorem consolidate_step (wf : data.Wf) (hv : n.value = some a)
    (ha : net.nodeRef n.suffix = some a) (hn : IsHandle n.suffix) (hns : n.suffix ∉ seen)
    (hkey : n.suffix ∈ data.ledger.keys) (hI : Consolidated net data seen st) :
    ∃ st', consolidateRentAndWages n st = .ok (false, st') ∧
      Consolidated net data (insert n.suffix seen) st' := by
  obtain ⟨net₁, data₁⟩ := st
  obtain ⟨hsame, m, himp, hstim⟩ := hI
  change data₁ = data at hsame
  subst hsame
  obtain ⟨c, hc⟩ := (mem_ledger_keys wf).mp hkey
  have hlookup : data₁.importanceChanges.lookup n.suffix = .ok (some c) := by
    rw [← hc]
    exact HandleTrie.lookup_eq wf.trie (wf.trie_size.symm ▸ hn)
  have hchange : ∀ f : ImportanceChanges → ℚ,
      data₁.change f n.suffix = f (data₁.changes.cell c) := fun f => by
    rw [StimuliData.change, HandleTrie.object, hc]
    rfl
  have ha₁ : net₁.nodeRef n.suffix = some a := (congrFun m.nodeRef _).trans ha
  -- the node has not been visited, so it still has the importance it started with
  have hsettled : (net₁.node a).importance - (data₁.changes.cell c).rent
      + (data₁.changes.cell c).wages = net.graph.settled data₁.ledger n.suffix := by
    have himp₁ := himp n.suffix
    rw [if_neg hns] at himp₁
    rw [← graph_importance ha₁, himp₁, ← hchange ImportanceChanges.rent,
      ← hchange ImportanceChanges.wages]
    rfl
  have hspread :
      net.graph.settled data₁.ledger n.suffix * data₁.spreadingRate (net₁.node a).arity
        = net.graph.toSpread rates data₁.ledger n.suffix := by
    rw [wf.spreadingRate, ← graph_arity ha₁, m.arity]
    rfl
  obtain ⟨m₁, himp₁, hstim₁⟩ := m.sound.moved_modify ha₁
    (f := fun x => { x with
      importance := net.graph.settled data₁.ledger n.suffix
        - net.graph.toSpread rates data₁.ledger n.suffix
      stimuliToSpread := net.graph.toSpread rates data₁.ledger n.suffix })
    fun _ => ⟨rfl, rfl, rfl⟩
  refine ⟨(net₁.modifyNode a _, data₁), ?_, rfl, m.trans m₁, fun k => ?_, fun k => ?_⟩
  · unfold consolidateRentAndWages
    simp only [hv, deref, bind, Except.bind, hlookup, hsettled, hspread]
  · rw [himp₁]
    by_cases hk : k = n.suffix
    · rw [hk, Function.update_self, if_pos (mem_insert_self _ _)]
    · simp only [Function.update_of_ne hk, mem_insert, hk, false_or]
      exact himp k
  · rw [hstim₁]
    by_cases hk : k = n.suffix
    · rw [hk, Function.update_self, if_pos (mem_insert_self _ _)]
    · simp only [Function.update_of_ne hk, mem_insert, hk, false_or]
      exact hstim k

/-- A node without a key in the private trie: the look up returns NULL. -/
theorem consolidate_null (wf : data.Wf) (hv : n.value = some a) (hn : IsHandle n.suffix)
    (hkey : n.suffix ∉ data.ledger.keys) (hI : Consolidated net data seen st) :
    consolidateRentAndWages n st = .error .nullPointer := by
  obtain ⟨net₁, data₁⟩ := st
  have hsame : data₁ = data := hI.same
  subst hsame
  have hlookup : data₁.importanceChanges.lookup n.suffix = .ok none := by
    rw [← wf.trie.not_mem_keySet.mp hkey]
    exact HandleTrie.lookup_eq wf.trie (wf.trie_size.symm ▸ hn)
  unfold consolidateRentAndWages
  simp only [hv, deref, bind, Except.bind, hlookup]

/--
**The second traversal, node by node or up to a NULL pointer**, in any order.

It succeeds when every node is a key of the ledger, and fails when one is not.
-/
theorem consolidate_simulates (s : net.Sound) (wf : data.Wf) (o : HandleTrie.Order Nat) :
    (net.graph.nodes ⊆ data.ledger.keys ∧
      ∃ net', visitNodesIn o consolidateRentAndWages data net = .ok data net' ∧ Moved net net' ∧
        net'.graph = net.graph.consolidate rates data.ledger) ∨
    (¬ net.graph.nodes ⊆ data.ledger.keys ∧
      visitNodesIn o consolidateRentAndWages data net = .error .nullPointer net) := by
  rcases traverseIn_cases s.wf.nodes o consolidateRentAndWages (net, data)
      (fun k => k ∉ data.ledger.keys) .nullPointer (Consolidated net data)
      ⟨rfl, Moved.refl s, fun k => by rw [if_neg (notMem_empty k)],
        fun k => by rw [if_neg (notMem_empty k)]⟩
      (fun n a seen st hv hf hns hb hI =>
        consolidate_step wf hv hf (s.wf.isHandle hf) hns (not_not.mp hb) hI)
      (fun n a seen st hv hf _ hb hI => consolidate_null wf hv (s.wf.isHandle hf) hb hI)
    with ⟨⟨net', data'⟩, hrun, hI, hall⟩ | ⟨hrun, k, hk, hbad⟩
  · obtain rfl : data' = data := hI.same
    exact .inl ⟨fun k hk => not_not.mp (hall k hk), net', visitNodesIn_ok hrun, hI.moved, hI.graph⟩
  · refine .inr ⟨fun hsub => hbad (hsub hk), ?_⟩
    unfold visitNodesIn
    rw [hrun]

theorem consolidatePhase_simulates (s : net.Sound) (wf : data.Wf) :
    (net.graph.nodes ⊆ data.ledger.keys ∧
      ∃ net', consolidatePhase data net = .ok data net' ∧ Moved net net' ∧
        net'.graph = net.graph.consolidate rates data.ledger) ∨
    (¬ net.graph.nodes ⊆ data.ledger.keys ∧
      consolidatePhase data net = .error .nullPointer net) := by
  unfold consolidatePhase
  rw [visitNodes_keyOrder s]
  exact consolidate_simulates s wf HandleTrie.keyOrder

/-! ## Spreading -/

theorem weight_eq (m : Moved net net') (ends : net.Ends) (ha : net.nodeRef k = some a)
    (he : net.edgeRef k h = some e) : weight net' (net'.edge e) = .ok (net.graph.weight k h) := by
  have ha' : net'.nodeRef k = some a := (congrFun m.nodeRef k).trans ha
  have hcount : (net'.node a).count = net.graph.count k := by rw [← graph_count ha', m.count]
  unfold weight
  rw [edge_eq m.edgeObjects, ends.node1 k h e he, ha]
  show Except.ok _ = _
  rw [hcount, ← graph_edgeCount he]
  rfl

/-- The weights of the edges seen are added up. -/
def Summed (net net' : HebbianNetwork) (data : StimuliData) (k : Key) (seen : Finset Key)
    (st : HebbianNetwork × StimuliData) : Prop :=
  st = (net', { data with sumWeights := ∑ h ∈ seen, net.graph.weight k h })

theorem sumWeights_step (m : Moved net net') (s : net.Sound) (ha : net.nodeRef k = some a)
    (hv : n.value = some e) (he : (net.node a).neighbors.find n.suffix = some e)
    (hns : n.suffix ∉ seen) (hI : Summed net net' data k seen st) :
    ∃ st', sumWeights n st = .ok (false, st') ∧
      Summed net net' data k (insert n.suffix seen) st' := by
  obtain rfl := hI
  have he : net.edgeRef k n.suffix = some e := by rw [edgeRef_of_ref ha, he]
  refine ⟨_, ?_, rfl⟩
  unfold sumWeights
  simp only [hv, deref, bind, Except.bind, weight_eq m s.ends ha he]
  rw [sum_insert hns, add_comm]

/-- The weights of the edges of a node are added up. -/
theorem sumWeights_loop (m : Moved net net') (s : net.Sound) (ha : net.nodeRef k = some a)
    (o : HandleTrie.Order Nat) (h0 : data.sumWeights = 0) :
    (net.node a).neighbors.traverseIn o sumWeights (net', data)
      = .ok (net', { data with sumWeights := net.graph.sumWeights k }) := by
  obtain ⟨st, hrun, hI⟩ := traverseIn_induct (s.wf.neighbors k a ha) o sumWeights
    (net', data) (Summed net net' data k) (by unfold Summed; rw [sum_empty, ← h0])
    fun n e seen st hv he hns hI => sumWeights_step m s ha hv he hns hI
  have hn : net.graph.neighbors k = (net.node a).neighbors.keySet := nodeField_of_ref ha
  rw [hrun, hI, Graph.sumWeights, hn]

/-- The neighbors seen have received their share. -/
structure Delivered (net net' : HebbianNetwork) (data : StimuliData) (k : Key) (seen : Finset Key)
    (st : HebbianNetwork × StimuliData) : Prop where
  same : st.2 = data
  moved : Moved net st.1
  importance : ∀ v, st.1.graph.importance v = net'.graph.importance v
    + if v ∈ seen then net.graph.share k v data.toSpread else 0
  stimuli : st.1.graph.stimuli = net'.graph.stimuli

theorem Delivered.start (m : Moved net net') : Delivered net net' data k ∅ (net', data) :=
  ⟨rfl, m, fun v => by rw [if_neg (notMem_empty v), add_zero], rfl⟩

theorem deliverStimulus_step (s : net.Sound) (ha : net.nodeRef k = some a)
    (hsum : data.sumWeights = net.graph.sumWeights k) (hv : n.value = some e)
    (he : (net.node a).neighbors.find n.suffix = some e) (hns : n.suffix ∉ seen)
    (hI : Delivered net net' data k seen st) :
    ∃ st', deliverStimulus n st = .ok (false, st') ∧
      Delivered net net' data k (insert n.suffix seen) st' := by
  obtain ⟨net₁, data₁⟩ := st
  obtain ⟨hsame, m₁, himp, hstim⟩ := hI
  change data₁ = data at hsame
  subst hsame
  have he : net.edgeRef k n.suffix = some e := by rw [edgeRef_of_ref ha, he]
  obtain ⟨b, hb⟩ := s.ends.stored _ _ _ he
  have hb₁ : net₁.nodeRef n.suffix = some b := (congrFun m₁.nodeRef _).trans hb
  -- the pointer in the edge leads to the node of the visited key
  have hnode2 : (net₁.edge e).node2 = some b := by
    rw [edge_eq m₁.edgeObjects, s.ends.node2 _ _ _ he, hb]
  have hshare : net.graph.weight k n.suffix / data₁.sumWeights * data₁.toSpread
      = net.graph.share k n.suffix data₁.toSpread := by
    rw [hsum]
    rfl
  obtain ⟨m₂, himp₂, hstim₂⟩ := m₁.sound.moved_modify hb₁
    (f := fun x => { x with
      importance := x.importance + net.graph.share k n.suffix data₁.toSpread })
    fun _ => ⟨rfl, rfl, rfl⟩
  refine ⟨(net₁.modifyNode b _, data₁), ?_, rfl, m₁.trans m₂, fun v => ?_, ?_⟩
  · unfold deliverStimulus
    simp only [hv, deref, bind, Except.bind, weight_eq m₁ s.ends ha he, hnode2, hshare]
  · rw [himp₂]
    by_cases hvn : v = n.suffix
    · rw [hvn, Function.update_self, if_pos (mem_insert_self _ _), ← graph_importance hb₁,
        himp, if_neg hns, add_zero]
    · simp only [Function.update_of_ne hvn, mem_insert, hvn, false_or]
      exact himp v
  · rw [hstim₂, ← hstim, ← graph_stimuli hb₁]
    exact Function.update_eq_self _ _

/-- What one node spreads reaches its neighbors, in proportion to the weights. -/
theorem deliverStimulus_loop (m : Moved net net') (s : net.Sound) (ha : net.nodeRef k = some a)
    (o : HandleTrie.Order Nat) (hsum : data.sumWeights = net.graph.sumWeights k) :
    ∃ net'', (net.node a).neighbors.traverseIn o deliverStimulus (net', data)
        = .ok (net'', data) ∧ Moved net net'' ∧
      (∀ v, net''.graph.importance v = net'.graph.importance v
        + if v ∈ net.graph.neighbors k then net.graph.share k v data.toSpread else 0) ∧
      net''.graph.stimuli = net'.graph.stimuli := by
  have hn : net.graph.neighbors k = (net.node a).neighbors.keySet := nodeField_of_ref ha
  obtain ⟨⟨net₁, data₁⟩, hrun, hsame, m₁, himp, hstim⟩ :=
    traverseIn_induct (s.wf.neighbors k a ha) o deliverStimulus (net', data)
      (Delivered net net' data k) (Delivered.start m)
      fun n e seen st hv he hns hI => deliverStimulus_step s ha hsum hv he hns hI
  change data₁ = data at hsame
  subst hsame
  rw [← hn] at himp
  exact ⟨net₁, hrun, m₁, himp, hstim⟩

/-- The invariant of the third traversal: the nodes seen have spread what they set aside. -/
structure Spread (net : HebbianNetwork) (seen : Finset Key) (st : HebbianNetwork × StimuliData) :
    Prop where
  moved : Moved net st.1
  importance : ∀ v, st.1.graph.importance v = net.graph.importance v
    + ∑ w ∈ seen with v ∈ net.graph.neighbors w, net.graph.share w v (net.graph.stimuli w)
  stimuli : ∀ k, st.1.graph.stimuli k = if k ∈ seen then 0 else net.graph.stimuli k

theorem Spread.start (s : net.Sound) : Spread net ∅ (net, data) :=
  ⟨Moved.refl s, fun v => by rw [filter_empty, sum_empty, add_zero],
    fun k => by rw [if_neg (notMem_empty k)]⟩

theorem consolidateStimulusIn_step (s : net.Sound) (o : HandleTrie.Order Nat)
    (hv : n.value = some a) (ha : net.nodeRef n.suffix = some a) (hns : n.suffix ∉ seen)
    (hI : Spread net seen st) :
    ∃ st', consolidateStimulusIn o n st = .ok (false, st') ∧
      Spread net (insert n.suffix seen) st' := by
  obtain ⟨net₁, data⟩ := st
  obtain ⟨m, himp, hstim⟩ := hI
  have ha₁ : net₁.nodeRef n.suffix = some a := (congrFun m.nodeRef _).trans ha
  have hneigh := m.neighbors a
  have hto : (net₁.node a).stimuliToSpread = net.graph.stimuli n.suffix := by
    rw [← graph_stimuli ha₁, hstim, if_neg hns]
  let data₁ := { data with toSpread := (net₁.node a).stimuliToSpread, sumWeights := 0 }
  let data₂ := { data₁ with sumWeights := net.graph.sumWeights n.suffix }
  have hsum : (net.node a).neighbors.traverseIn o sumWeights (net₁, data₁) = .ok (net₁, data₂) :=
    sumWeights_loop m s ha o rfl
  obtain ⟨net₂, hdel, m₂, himp₂, hstim₂⟩ :
      ∃ net₂, (net.node a).neighbors.traverseIn o deliverStimulus (net₁, data₂)
        = .ok (net₂, data₂) ∧ Moved net net₂ ∧
      (∀ v, net₂.graph.importance v = net₁.graph.importance v
        + if v ∈ net.graph.neighbors n.suffix then net.graph.share n.suffix v data₂.toSpread
          else 0) ∧
      net₂.graph.stimuli = net₁.graph.stimuli := deliverStimulus_loop m s ha o rfl
  have ha₂ : net₂.nodeRef n.suffix = some a := (congrFun m₂.nodeRef _).trans ha
  obtain ⟨m₃, himp₃, hstim₃⟩ := m₂.sound.moved_modify ha₂
    (f := fun x => { x with stimuliToSpread := 0 }) fun _ => ⟨rfl, rfl, rfl⟩
  refine ⟨(net₂.modifyNode a _, data₂), ?_, m₂.trans m₃, fun v => ?_, fun k => ?_⟩
  · unfold consolidateStimulusIn
    simp only [hv, deref, bind, Except.bind, hneigh, hsum, hdel, data₁]
  -- to clear what was set aside moves no importance
  · have hself : (net₂.modifyNode a fun x => { x with stimuliToSpread := 0 }).graph.importance v
        = net₂.graph.importance v := by
      rw [himp₃, ← graph_importance ha₂]
      exact congrFun (Function.update_eq_self _ _) v
    have hto₂ : data₂.toSpread = net.graph.stimuli n.suffix := hto
    rw [hself, himp₂, himp, hto₂, filter_insert]
    by_cases hvn : v ∈ net.graph.neighbors n.suffix
    · rw [if_pos hvn, if_pos hvn, sum_insert (fun h => hns (mem_filter.mp h).1)]
      ring
    · rw [if_neg hvn, if_neg hvn, add_zero]
  · rw [hstim₃, hstim₂]
    by_cases hk : k = n.suffix
    · rw [hk, Function.update_self, if_pos (mem_insert_self _ _)]
    · simp only [Function.update_of_ne hk, mem_insert, hk, false_or]
      exact hstim k

/-- `consolidate_stimulus` visits the neighbors in the order of their keys. -/
theorem consolidateStimulus_step (s : net.Sound) (hv : n.value = some a)
    (ha : net.nodeRef n.suffix = some a) (hns : n.suffix ∉ seen) (hI : Spread net seen st) :
    ∃ st', consolidateStimulus n st = .ok (false, st') ∧ Spread net (insert n.suffix seen) st' := by
  have hwf : (st.1.node a).neighbors.Wf := by
    rw [hI.moved.neighbors a]
    exact s.wf.neighbors _ a ha
  have hsame : consolidateStimulus n st = consolidateStimulusIn HandleTrie.keyOrder n st := by
    unfold consolidateStimulus consolidateStimulusIn
    simp only [hv, deref, bind, Except.bind, HandleTrie.traverse_keyOrder hwf]
  rw [hsame]
  exact consolidateStimulusIn_step s HandleTrie.keyOrder hv ha hns hI

/-- **The third traversal never fails**, in any order. -/
theorem spread_simulates (s : net.Sound) (o : HandleTrie.Order Nat) (data : StimuliData)
    {visit : TrieNode Nat → HebbianNetwork × StimuliData → Visit}
    (hstep : ∀ n a seen st, n.value = some a → net.nodeRef n.suffix = some a → n.suffix ∉ seen →
      Spread net seen st →
      ∃ st', visit n st = .ok (false, st') ∧ Spread net (insert n.suffix seen) st') :
    ∃ data' net', visitNodesIn o visit data net = .ok data' net' ∧ Moved net net' ∧
      net'.graph = net.graph.spread := by
  obtain ⟨⟨net', data'⟩, hrun, m, himp, hstim⟩ := traverseIn_induct s.wf.nodes o visit
    (net, data) (Spread net) (Spread.start s) hstep
  refine ⟨data', net', visitNodesIn_ok hrun, m, ?_⟩
  rw [m.graph]
  exact Graph.ext rfl rfl rfl (funext himp) (funext hstim) rfl rfl rfl rfl

theorem spreadPhase_simulates (s : net.Sound) (data : StimuliData) :
    ∃ data' net', spreadPhase data net = .ok data' net' ∧ Moved net net' ∧
      net'.graph = net.graph.spread := by
  unfold spreadPhase
  rw [visitNodes_keyOrder s]
  exact spread_simulates s HandleTrie.keyOrder data fun n a seen st hv ha hns hI =>
    consolidateStimulus_step s hv ha hns hI

/-! ## A whole stimulus -/

/--
**`spread_stimuli` on a valid request is total and is `Graph.stimulate`**, in any order.

Nothing runs in between, so every node is a key of the private trie.
-/
theorem spreadStimuliIn_simulates (s : net.Sound) (hr : request.Valid) (o : HandleTrie.Order Nat) :
    ∃ net', spreadStimuliIn o request net = .ok () net' ∧ net'.Sound ∧
      net'.graph = net.graph.stimulate rates request.named request.boost := by
  obtain ⟨data₁, hrun₁, wf₁, hledger₁⟩ := collectRent_simulates s o
  obtain ⟨data₂, net₂, hrun₂, wf₂, s₂, hgraph₂, hkeys, hledger₂⟩ :=
    distributeWagesPhase_alone s wf₁ hledger₁ hr
  rcases consolidate_simulates s₂ wf₂ o with ⟨-, net₃, hrun₃, m₃, hgraph₃⟩ | ⟨hbad, -⟩
  · obtain ⟨data₄, net₄, hrun₄, m₄, hgraph₄⟩ := spread_simulates m₃.sound o data₂
      fun n a seen st hv ha hns hI => consolidateStimulusIn_step m₃.sound o hv ha hns hI
    refine ⟨net₄, ?_, m₄.sound, ?_⟩
    · have hget : (get : NetM HebbianNetwork) net = .ok net net := rfl
      unfold spreadStimuliIn
      rw [NetM.bind_ok hget, NetM.bind_ok hrun₁, NetM.bind_ok hrun₂, NetM.bind_ok hrun₃,
        NetM.discard_ok hrun₄]
    · rw [hgraph₄, hgraph₃, hgraph₂, hledger₂]
      rfl
  · exact absurd hkeys hbad

/-- The phases of a stimulus that runs alone, with what each leads to. -/
structure Phases (request : HandleCount) (net : HebbianNetwork) (data₁ data₂ data₄ : StimuliData)
    (net₂ net₃ net₄ : HebbianNetwork) : Prop where
  collectRent : collectRentPhase net = .ok data₁ net
  distributeWages : distributeWagesPhase request data₁ net = .ok data₂ net₂
  consolidate : consolidatePhase data₂ net₂ = .ok data₂ net₃
  spread : spreadPhase data₂ net₃ = .ok data₄ net₄
  ledger₁ : data₁.ledger = net.graph.collectRent rates
  ledger₂ : data₂.ledger
    = net.graph.distributeWages request.named request.boost (net.graph.collectRent rates)
  wf : data₂.Wf
  sound : net₄.Sound
  graph₃ : net₃.graph = net.graph.alienateTokens.consolidate rates data₂.ledger
  graph₄ : net₄.graph = net₃.graph.spread

/-- **The phases of a stimulus on a valid request all complete.** -/
theorem exists_phases (s : net.Sound) (hr : request.Valid) :
    ∃ data₁ data₂ data₄ net₂ net₃ net₄, Phases request net data₁ data₂ data₄ net₂ net₃ net₄ := by
  obtain ⟨data₁, hrun₁, wf₁, hledger₁⟩ := collectRentPhase_simulates s
  obtain ⟨data₂, net₂, hrun₂, wf₂, s₂, hgraph₂, hkeys, hledger₂⟩ :=
    distributeWagesPhase_alone s wf₁ hledger₁ hr
  rcases consolidatePhase_simulates s₂ wf₂ with ⟨-, net₃, hrun₃, m₃, hgraph₃⟩ | ⟨hbad, -⟩
  · obtain ⟨data₄, net₄, hrun₄, m₄, hgraph₄⟩ := spreadPhase_simulates m₃.sound data₂
    rw [hgraph₂] at hgraph₃
    exact ⟨data₁, data₂, data₄, net₂, net₃, net₄, hrun₁, hrun₂, hrun₃, hrun₄, hledger₁, hledger₂,
      wf₂, m₄.sound, hgraph₃, hgraph₄⟩
  · exact absurd hkeys hbad

theorem Phases.call {data₁ data₂ data₄ : StimuliData} {net₂ net₃ net₄ : HebbianNetwork}
    (h : Phases request net data₁ data₂ data₄ net₂ net₃ net₄) :
    spreadStimuli request net = .ok () net₄ := by
  unfold spreadStimuli
  rw [NetM.bind_ok h.collectRent, NetM.bind_ok h.distributeWages, NetM.bind_ok h.consolidate,
    NetM.discard_ok h.spread]

/-- **`spread_stimuli` on a valid request is total and is `Graph.stimulate`.** -/
theorem spreadStimuli_simulates (s : net.Sound) (hr : request.Valid) :
    ∃ net', spreadStimuli request net = .ok () net' ∧ net'.Sound ∧
      net'.graph = net.graph.stimulate rates request.named request.boost := by
  obtain ⟨data₁, data₂, data₄, net₂, net₃, net₄, h⟩ := exists_phases s hr
  refine ⟨net₄, h.call, h.sound, ?_⟩
  rw [h.graph₄, h.graph₃, h.ledger₂]
  rfl

end TokenSpreader

end AttentionBroker
