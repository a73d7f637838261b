import AttentionBroker.Hebbian.Graph
import AttentionBroker.Hebbian.Links

/-!
# The network refines its graph

`graph` is the graph a network stands for. Each function of `HebbianNetwork` that changes
the network is simulated by the function of the same name on graphs, and `correlation` by
`Graph.correlation`.
-/

namespace AttentionBroker

open Infra

namespace HebbianNetwork

variable {net net' : HebbianNetwork} {k h k' h' : Key} {a b e : Nat}

/-- A field of the node of a handle, or its value where there is no node. -/
def nodeField {β : Type} (net : HebbianNetwork) (f : Node → β) (d : β) (k : Key) : β :=
  ((net.nodeAt k).map f).getD d

/-- The graph a network stands for. -/
def graph (net : HebbianNetwork) : Graph Key where
  nodes := net.nodes.keySet
  count := net.nodeField Node.count 0
  arity := net.nodeField Node.arity 0
  importance := net.nodeField Node.importance 0
  stimuli := net.nodeField Node.stimuliToSpread 0
  neighbors := net.nodeField (fun n => n.neighbors.keySet) ∅
  edgeCount := fun k h => ((net.edgeAt k h).map Edge.count).getD 0
  largestArity := net.largestArity
  tokens := net.tokensToDistribute

/-! ## Reading the graph -/

theorem nodeField_of_ref {β : Type} {f : Node → β} {d : β} (ha : net.nodeRef k = some a) :
    net.nodeField f d k = f (net.node a) := by
  rw [nodeField, nodeAt_of_ref ha]
  rfl

theorem nodeField_none {β : Type} {f : Node → β} {d : β} (ha : net.nodeRef k = none) :
    net.nodeField f d k = d := by
  rw [nodeField, nodeAt, ha]
  rfl

theorem Wf.mem_nodes (wf : net.Wf) : k ∈ net.graph.nodes ↔ ∃ a, net.nodeRef k = some a :=
  wf.nodes.mem_keySet

theorem Wf.isHandle_of_mem (wf : net.Wf) (hk : k ∈ net.graph.nodes) : IsHandle k := by
  obtain ⟨a, ha⟩ := wf.mem_nodes.mp hk
  exact wf.isHandle ha

theorem Wf.not_mem_nodes (wf : net.Wf) : k ∉ net.graph.nodes ↔ net.nodeRef k = none :=
  wf.nodes.not_mem_keySet

theorem Wf.mem_neighbors (wf : net.Wf) :
    h ∈ net.graph.neighbors k ↔ ∃ e, net.edgeRef k h = some e := by
  cases ha : net.nodeRef k with
  | none =>
    have hn : net.graph.neighbors k = ∅ := nodeField_none ha
    simp [hn, edgeRef, nodeAt, ha]
  | some a =>
    have hn : net.graph.neighbors k = (net.node a).neighbors.keySet := nodeField_of_ref ha
    rw [edgeRef_of_ref ha, hn]
    exact (wf.neighbors k a ha).mem_keySet

theorem graph_count (ha : net.nodeRef k = some a) : net.graph.count k = (net.node a).count :=
  nodeField_of_ref ha

theorem graph_arity (ha : net.nodeRef k = some a) : net.graph.arity k = (net.node a).arity :=
  nodeField_of_ref ha

theorem graph_importance (ha : net.nodeRef k = some a) :
    net.graph.importance k = (net.node a).importance :=
  nodeField_of_ref ha

theorem graph_stimuli (ha : net.nodeRef k = some a) :
    net.graph.stimuli k = (net.node a).stimuliToSpread :=
  nodeField_of_ref ha

theorem graph_edgeCount (he : net.edgeRef k h = some e) :
    net.graph.edgeCount k h = (net.edge e).count := by
  show ((net.edgeAt k h).map Edge.count).getD 0 = _
  rw [edgeAt_of_ref he]
  rfl

theorem graph_edgeCount_none (he : net.edgeRef k h = none) : net.graph.edgeCount k h = 0 := by
  show ((net.edgeAt k h).map Edge.count).getD 0 = _
  rw [edgeAt, he]
  rfl

/-- A node that is not there has no importance. -/
theorem Wf.importance_eq_zero (wf : net.Wf) (hk : k ∉ net.graph.nodes) :
    net.graph.importance k = 0 :=
  nodeField_none (wf.not_mem_nodes.mp hk)

theorem getNodeCount_eq (wf : net.Wf) (hk : IsHandle k) :
    net.getNodeCount k = .ok (net.graph.count k) := by
  unfold getNodeCount
  rw [HandleTrie.lookup_eq wf.nodes (wf.nodes_size.symm ▸ hk)]
  cases ha : net.nodes.find k with
  | none => exact congrArg Except.ok (nodeField_none ha).symm
  | some a => exact congrArg Except.ok (graph_count ha).symm

theorem getNodeImportance_eq (wf : net.Wf) (hk : IsHandle k) :
    net.getNodeImportance k = .ok (net.graph.importance k) := by
  unfold getNodeImportance
  rw [HandleTrie.lookup_eq wf.nodes (wf.nodes_size.symm ▸ hk)]
  cases ha : net.nodes.find k with
  | none => exact congrArg Except.ok (nodeField_none ha).symm
  | some a => exact congrArg Except.ok (graph_importance ha).symm

theorem getAsymmetricEdgeCount_eq (wf : net.Wf) (hk : IsHandle k) (hh : IsHandle h) :
    net.getAsymmetricEdgeCount k h = .ok (net.graph.edgeCount k h) := by
  unfold getAsymmetricEdgeCount
  rw [HandleTrie.lookup_eq wf.nodes (wf.nodes_size.symm ▸ hk)]
  cases ha : net.nodes.find k with
  | none =>
    rw [graph_edgeCount_none (by rw [edgeRef, nodeAt, nodeRef, ha]; rfl)]
    rfl
  | some a =>
    simp only [bind, Except.bind]
    rw [lookup_neighbor wf ha hh]
    cases he : net.edgeRef k h with
    | none => rw [graph_edgeCount_none he]
    | some e => rw [graph_edgeCount he]

/-! ## Simulation of the steps -/

theorem AddedNode.graph (wf : net.Wf) (wf' : net'.Wf) (hs : AddedNode net k a net') :
    net'.graph = net.graph.addNode k := by
  have hedge : net'.edgeAt = net.edgeAt := by
    funext k' h
    rw [edgeAt, edgeAt, hs.edgeRef, edge_eq hs.edgeObjects]
  have hfield : ∀ {β : Type} (f : Node → β) (d : β), f Node.new = d →
      (∀ n, f (n.merge Node.new) = f n) → net'.nodeField f d = net.nodeField f d := by
    intro β f d hnew hmerge
    funext k'
    rw [nodeField, hs.nodeAt, nodeField]
    by_cases hk : k' = k
    · subst hk
      cases hn : net.nodeAt k' with
      | none => simp [hnew]
      | some n => simp [hmerge]
    · rw [if_neg hk]
  refine Graph.ext ?_ ?_ ?_ ?_ ?_ ?_ ?_ hs.largestArity hs.tokens
  · ext k'
    show k' ∈ net'.graph.nodes ↔ k' ∈ insert k net.graph.nodes
    rw [Finset.mem_insert, wf'.mem_nodes, wf.mem_nodes, hs.nodeRef]
    by_cases hk : k' = k
    · simp [hk]
    · simp [hk]
  · funext k'
    show net'.nodeField Node.count 0 k'
      = Function.update (net.nodeField Node.count 0) k (net.nodeField Node.count 0 k + 1) k'
    rw [nodeField, hs.nodeAt]
    by_cases hk : k' = k
    · subst hk
      rw [if_pos rfl, Function.update_self, nodeField]
      cases hn : net.nodeAt k' with
      | none => rfl
      | some n => rfl
    · rw [if_neg hk, Function.update_of_ne hk, nodeField]
  · exact hfield Node.arity 0 rfl fun _ => rfl
  · exact hfield Node.importance 0 rfl fun n => add_zero n.importance
  · exact hfield Node.stimuliToSpread 0 rfl fun _ => rfl
  · refine hfield (fun n => n.neighbors.keySet) ∅ ?_ fun _ => rfl
    show (newHandleTrie : HandleTrie Nat).keys.toFinset = ∅
    rw [newHandleTrie, HandleTrie.keys_new]
    rfl
  · funext k' h
    show ((net'.edgeAt k' h).map Edge.count).getD 0 = ((net.edgeAt k' h).map Edge.count).getD 0
    rw [hedge]

theorem InsertedEdge.edgeCount (wf' : net'.Wf) (hi : InsertedEdge net k h e net') (k' h' : Key) :
    net'.graph.edgeCount k' h'
      = if k' = k ∧ h' = h then net.graph.edgeCount k h + 1 else net.graph.edgeCount k' h' := by
  by_cases hp : k' = k ∧ h' = h
  · obtain ⟨rfl, rfl⟩ := hp
    rw [if_pos ⟨rfl, rfl⟩, graph_edgeCount hi.bound, hi.edge]
    cases hn : net.edgeRef k' h' with
    | none =>
      rw [graph_edgeCount_none hn, edgeAt, hn]
      rfl
    | some e₀ =>
      rw [graph_edgeCount hn, edgeAt_of_ref hn]
      rfl
  · have href : net'.edgeRef k' h' = net.edgeRef k' h' := by rw [hi.edgeRef, if_neg hp]
    rw [if_neg hp]
    cases hn : net.edgeRef k' h' with
    | none => rw [graph_edgeCount_none hn, graph_edgeCount_none (href.trans hn)]
    | some e' =>
      -- it is another object than the one bound to the pair
      have hne : e' ≠ e := fun hee => hp (wf'.edge_inj _ _ _ _ _ (href.trans hn) (hee ▸ hi.bound))
      rw [graph_edgeCount hn, graph_edgeCount (href.trans hn), hi.frame k' h' e' hn hne]

theorem InsertedEdge.graph (wf : net.Wf) (wf' : net'.Wf) (hi : InsertedEdge net k h e net') :
    net'.graph = net.graph.insertEdge k h := by
  have href := hi.nodeRef
  have hfield : ∀ {β : Type} (f : Node → β) (d : β), (∀ b, f (net'.node b) = f (net.node b)) →
      net'.nodeField f d = net.nodeField f d := by
    intro β f d hf
    funext k'
    cases hb : net.nodeRef k' with
    | none => rw [nodeField_none hb, nodeField_none (by rw [href, hb])]
    | some b => rw [nodeField_of_ref hb, nodeField_of_ref (by rw [href, hb]), hf]
  refine Graph.ext ?_ ?_ ?_ ?_ ?_ ?_ ?_ hi.largestArity hi.tokens
  · exact congrArg HandleTrie.keySet hi.nodes
  · exact hfield Node.count 0 fun b => (hi.fields b).1
  · exact hfield Node.arity 0 fun b => (hi.fields b).2.1
  · exact hfield Node.importance 0 fun b => (hi.fields b).2.2.1
  · exact hfield Node.stimuliToSpread 0 fun b => (hi.fields b).2.2.2
  · funext k'
    ext h'
    show h' ∈ net'.graph.neighbors k' ↔ h' ∈ Function.update net.graph.neighbors k _ k'
    rw [wf'.mem_neighbors, hi.edgeRef]
    by_cases hk : k' = k
    · subst hk
      rw [Function.update_self, Finset.mem_insert, wf.mem_neighbors]
      by_cases hh : h' = h
      · simp [hh]
      · simp [hh]
    · rw [Function.update_of_ne hk, wf.mem_neighbors, if_neg (fun hp => hk hp.1)]
  · funext k' h'
    show net'.graph.edgeCount k' h' = Function.update net.graph.edgeCount k
      (Function.update (net.graph.edgeCount k) h (net.graph.edgeCount k h + 1)) k' h'
    rw [hi.edgeCount wf' k' h', Function.update_apply]
    by_cases hk : k' = k
    · subst hk
      simp [Function.update_apply]
    · simp [hk]

theorem InitialisedEdge.graph (wf : net.Wf) (wf' : net'.Wf) (ha : net.nodeRef k = some a)
    (he : net.edgeRef k h = some e) (hc : (net.edge e).count = 1) {node2 : Option Nat}
    (hi : InitialisedEdge net k a e node2 net') : net'.graph = net.graph.initEdge k h := by
  have hc' : net.graph.edgeCount k h = 1 := by rw [graph_edgeCount he, hc]
  have hfield : ∀ {β : Type} (f : Node → β) (d : β),
      (∀ n : Node, f { n with arity := n.arity + 1 } = f n) →
      net'.nodeField f d = net.nodeField f d := by
    intro β f d hf
    funext k'
    rw [nodeField, hi.nodeAt, nodeField]
    by_cases hk : k' = k
    · subst hk
      rw [if_pos rfl, Option.map_map]
      exact congrArg (Option.getD · d) (Option.map_congr fun n _ => hf n)
    · rw [if_neg hk]
  rw [Graph.initEdge, if_pos hc']
  refine Graph.ext ?_ ?_ ?_ ?_ ?_ ?_ ?_ ?_ hi.tokens
  · exact congrArg HandleTrie.keySet hi.nodes
  · exact hfield Node.count 0 fun _ => rfl
  · funext k'
    show net'.nodeField Node.arity 0 k' = Function.update net.graph.arity k _ k'
    rw [nodeField, hi.nodeAt]
    by_cases hk : k' = k
    · subst hk
      rw [if_pos rfl, Function.update_self, graph_arity ha, nodeAt_of_ref ha]
      rfl
    · rw [if_neg hk, Function.update_of_ne hk]
      rfl
  · exact hfield Node.importance 0 fun _ => rfl
  · exact hfield Node.stimuliToSpread 0 fun _ => rfl
  · funext k'
    ext h'
    show h' ∈ net'.graph.neighbors k' ↔ h' ∈ net.graph.neighbors k'
    rw [wf'.mem_neighbors, wf.mem_neighbors, hi.edgeRef]
  · funext k' h'
    show net'.graph.edgeCount k' h' = net.graph.edgeCount k' h'
    cases hn : net.edgeRef k' h' with
    | none => rw [graph_edgeCount_none hn, graph_edgeCount_none (by rw [hi.edgeRef, hn])]
    | some e' =>
      rw [graph_edgeCount hn, graph_edgeCount (by rw [hi.edgeRef, hn]), hi.edge]
      by_cases hee : e' = e
      · rw [if_pos hee, hee]
      · rw [if_neg hee]
  · rw [graph_arity ha]
    exact hi.largestArity

/-! ## Simulation of the calls -/

theorem addNode_simulates (s : net.Sound) (hk : IsHandle k) :
    ∃ a net', addNode k net = .ok a net' ∧ net'.Sound ∧ net'.graph = net.graph.addNode k := by
  obtain ⟨a, net', hrun, wf', hs⟩ := addNode_spec s.wf hk
  exact ⟨a, net', hrun, ⟨wf', hs.ends s.ends⟩, hs.graph s.wf wf'⟩

/--
The ends stay right when every edge is an old one that keeps its ends, or the added one with
the nodes of its two handles.
-/
theorem Ends.added (ends : net.Ends) (href : net'.nodeRef = net.nodeRef)
    (ha : net.nodeRef k = some a) (hb : net.nodeRef h = some b) (hne : k ≠ h)
    (hcases : ∀ k' h' e', net'.edgeRef k' h' = some e' →
      (net.edgeRef k' h' = some e' ∧ (net'.edge e').node1 = (net.edge e').node1 ∧
        (net'.edge e').node2 = (net.edge e').node2) ∨
      (k' = k ∧ h' = h ∧ (net'.edge e').node1 = some a ∧ (net'.edge e').node2 = some b)) :
    net'.Ends := by
  constructor <;> intro k' h' e' he' <;>
    rcases hcases k' h' e' he' with ⟨hr, h1, h2⟩ | ⟨rfl, rfl, h1, h2⟩
  · rw [h1, href, ends.node1 _ _ _ hr]
  · rw [h1, href, ha]
  · rw [h2, href, ends.node2 _ _ _ hr]
  · rw [h2, href, hb]
  · rw [href]
    exact ends.stored _ _ _ hr
  · exact ⟨b, by rw [href, hb]⟩
  · exact ends.ne _ _ _ hr
  · exact hne

/-- **`add_asymmetric_edge` between two nodes of the network.** -/
theorem addAsymmetricEdge_simulates (s : net.Sound) (ha : net.nodeRef k = some a)
    (hb : net.nodeRef h = some b) (hne : k ≠ h) :
    ∃ e net', addAsymmetricEdge k h (some a) (some b) net = .ok e net' ∧ net'.Sound ∧
      net'.nodeRef = net.nodeRef ∧ net'.graph = net.graph.addEdge (k, h) := by
  obtain ⟨e, net₁, hrun₁, wf₁, hi⟩ := insertEdge_spec s.wf ha (s.wf.isHandle hb)
  have href := hi.nodeRef
  have ha₁ : net₁.nodeRef k = some a := (congrFun href k).trans ha
  have hgraph₁ := hi.graph s.wf wf₁
  by_cases hc : (net₁.edge e).count = 1
  · -- The edge is new, or its counter has wrapped around. Either way it gets its ends here.
    obtain ⟨net₂, hrun₂, wf₂, hi₂⟩ := initEdge_spec wf₁ ha₁ (some b) hc
    have href₂ : net₂.nodeRef = net.nodeRef := hi₂.nodeRef.trans href
    refine ⟨e, net₂, ?_, ⟨wf₂, s.ends.added href₂ ha hb hne fun k' h' e' he' => ?_⟩, href₂, ?_⟩
    · exact (NetM.bind_ok hrun₁).trans (NetM.bind_ok hrun₂)
    · rw [hi₂.edgeRef] at he'
      rw [hi₂.edge]
      rcases hi.edge_cases wf₁ he' with ⟨hee, hr, hedge⟩ | ⟨rfl, -⟩ | ⟨rfl, -⟩
      · rw [if_neg hee, hedge]
        exact .inl ⟨hr, rfl, rfl⟩
      all_goals
        obtain ⟨rfl, rfl⟩ := wf₁.edge_inj _ _ _ _ _ he' hi.bound
        rw [if_pos rfl]
        exact .inr ⟨rfl, rfl, rfl, rfl⟩
    · rw [hi₂.graph wf₁ wf₂ ha₁ hi.bound hc, hgraph₁]
      rfl
  · refine ⟨e, net₁, ?_, ⟨wf₁, s.ends.added href ha hb hne fun k' h' e' he' => ?_⟩, href, ?_⟩
    · exact (NetM.bind_ok hrun₁).trans (NetM.bind_ok (initEdge_skip hc))
    · rcases hi.edge_cases wf₁ he' with ⟨-, hr, hedge⟩ | ⟨rfl, hr, hedge⟩ | ⟨rfl, -, hedge⟩
      · exact .inl ⟨hr, by rw [hedge], by rw [hedge]⟩
      · exact .inl ⟨hr, by rw [hedge]; rfl, by rw [hedge]; rfl⟩
      · exact absurd (by rw [hedge]; rfl) hc
    · have hc' : (net.graph.insertEdge k h).edgeCount k h ≠ 1 := by
        rw [← hgraph₁, graph_edgeCount hi.bound]
        exact hc
      rw [hgraph₁, Graph.addEdge, Graph.initEdge, if_neg hc']

theorem addSymmetricEdge_simulates (s : net.Sound) (ha : net.nodeRef k = some a)
    (hb : net.nodeRef h = some b) (hne : k ≠ h) :
    ∃ net', addSymmetricEdge k h (some a) (some b) net = .ok () net' ∧ net'.Sound ∧
      net'.nodeRef = net.nodeRef ∧ net'.graph = [(k, h), (h, k)].foldl Graph.addEdge net.graph := by
  obtain ⟨e₁, net₁, hrun₁, s₁, href₁, hg₁⟩ := addAsymmetricEdge_simulates s ha hb hne
  obtain ⟨e₂, net₂, hrun₂, s₂, href₂, hg₂⟩ :=
    addAsymmetricEdge_simulates s₁ ((congrFun href₁ h).trans hb) ((congrFun href₁ k).trans ha)
      hne.symm
  refine ⟨net₂, ?_, s₂, href₂.trans href₁, ?_⟩
  · exact (NetM.bind_ok (NetM.discard_ok hrun₁)).trans (NetM.discard_ok hrun₂)
  · rw [hg₂, hg₁]
    rfl

/-- The inner loop of `correlation`. -/
theorem addPairs_simulates {l : List Key} (ha : net.nodeRef k = some a) (s : net.Sound)
    (hl : ∀ h ∈ l, ∃ b, net.nodeRef h = some b) :
    ∃ net', (l.forM fun s2 =>
        if k < s2 then do
          let node2 ← lookupNode s2
          addSymmetricEdge k s2 (some a) node2
        else pure ()) net = .ok () net' ∧ (net'.Sound ∧ net'.nodeRef = net.nodeRef) ∧
      net'.graph = l.foldl (fun g s2 =>
        (if k < s2 then [(k, s2), (s2, k)] else []).foldl Graph.addEdge g) net.graph := by
  refine NetM.forM_ok _ (fun net' => net'.Sound ∧ net'.nodeRef = net.nodeRef) graph _ l ?_ net
    ⟨s, rfl⟩
  rintro h hh net₁ ⟨s₁, href⟩
  by_cases hlt : k < h
  · obtain ⟨b, hb⟩ := hl h hh
    have hb₁ : net₁.nodeRef h = some b := (congrFun href h).trans hb
    obtain ⟨net₂, hrun₂, s₂, href₂, hg₂⟩ := addSymmetricEdge_simulates s₁
      ((congrFun href k).trans ha) hb₁ fun he => List.lt_irrefl _ (he ▸ hlt)
    refine ⟨net₂, ?_, ⟨s₂, href₂.trans href⟩, ?_⟩
    · rw [if_pos hlt, NetM.bind_ok (lookupNode_eq s₁.wf (s.wf.isHandle hb)), hb₁, hrun₂]
    · rw [if_pos hlt, hg₂]
  · refine ⟨net₁, ?_, ⟨s₁, href⟩, ?_⟩
    · rw [if_neg hlt]; rfl
    · rw [if_neg hlt]; rfl

/--
**`correlation` on handles is total and is `Graph.correlation`.**

It keeps the invariants of the network, and every handle of the list is a node afterwards.
-/
theorem correlation_simulates (s : net.Sound) {l : List Key} (hl : ∀ k ∈ l, IsHandle k) :
    ∃ net', correlation l net = .ok () net' ∧ net'.Sound ∧
      net'.graph = net.graph.correlation l := by
  obtain ⟨net₁, hrun₁, s₁, hg₁⟩ := NetM.forM_ok (fun k => discard (addNode k)) Sound
    graph Graph.addNode l (fun k hk net s => by
      obtain ⟨a, net', hrun, s', hg⟩ := addNode_simulates s (hl k hk)
      exact ⟨net', NetM.discard_ok hrun, s', hg⟩) net s
  have hin : ∀ k ∈ l, ∃ a, net₁.nodeRef k = some a := fun k hk => by
    rw [← s₁.wf.mem_nodes, hg₁]
    exact Graph.mem_foldl_addNode.mpr (.inr hk)
  obtain ⟨net₂, hrun₂, ⟨s₂, -⟩, hg₂⟩ := NetM.forM_ok
    (fun s1 => do
      let node1 ← lookupNode s1
      l.forM fun s2 =>
        if s1 < s2 then do
          let node2 ← lookupNode s2
          addSymmetricEdge s1 s2 node1 node2
        else pure ())
    (fun net' => net'.Sound ∧ net'.nodeRef = net₁.nodeRef) graph
    (fun g s1 => l.foldl (fun g s2 =>
      (if s1 < s2 then [(s1, s2), (s2, s1)] else []).foldl Graph.addEdge g) g) l
    (fun k hk net' hnet' => by
      obtain ⟨s', href⟩ := hnet'
      obtain ⟨a, ha⟩ := hin k hk
      have ha' : net'.nodeRef k = some a := (congrFun href k).trans ha
      obtain ⟨net'', hrun, ⟨s'', href'⟩, hg⟩ := addPairs_simulates ha' s' fun h hh => by
        obtain ⟨b, hb⟩ := hin h hh
        exact ⟨b, (congrFun href h).trans hb⟩
      refine ⟨net'', ?_, ⟨s'', href'.trans href⟩, hg⟩
      rw [NetM.bind_ok (lookupNode_eq s'.wf (hl k hk)), ha', hrun]) net₁ ⟨s₁, rfl⟩
  refine ⟨net₂, (NetM.bind_ok hrun₁).trans hrun₂, s₂, ?_⟩
  rw [hg₂, hg₁, Graph.correlation, Graph.edgePairs]
  simp only [List.foldl_flatMap]

end HebbianNetwork

end AttentionBroker
