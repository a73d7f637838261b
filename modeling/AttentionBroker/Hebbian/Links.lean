import AttentionBroker.Hebbian.Network

/-!
# The two levels of tries of a network

`nodeRef` and `edgeRef` are the node trie and the neighbor tries as maps to addresses,
`nodeAt` and `edgeAt` as maps to objects. `Wf` says that the tries are well formed and that
no object is shared between two keys. `Ends` says that `node1` and `node2` of an edge point
to the nodes of its two handles.

`addNode_spec`, `insertEdge_spec`, `initEdge_spec` and `modifyNode_spec` say what one step
does to these maps. Nothing above this module unfolds the steps.
-/

namespace AttentionBroker

open Infra

namespace HebbianNetwork

variable {net net' : HebbianNetwork} {k h k' h' : Key} {a e : Nat}

/-! ## Views -/

/-- The address of the node of a handle. -/
def nodeRef (net : HebbianNetwork) (k : Key) : Option Nat := net.nodes.find k

/-- The node of a handle. -/
def nodeAt (net : HebbianNetwork) (k : Key) : Option Node := (net.nodeRef k).map net.node

/-- The address of the edge between two handles. -/
def edgeRef (net : HebbianNetwork) (k h : Key) : Option Nat :=
  (net.nodeAt k).bind fun n => n.neighbors.find h

/-- The edge between two handles. -/
def edgeAt (net : HebbianNetwork) (k h : Key) : Option Edge := (net.edgeRef k h).map net.edge

theorem nodeAt_of_ref (h : net.nodeRef k = some a) : net.nodeAt k = some (net.node a) := by
  rw [nodeAt, h, Option.map_some]

theorem edgeRef_of_ref (ha : net.nodeRef k = some a) (h : Key) :
    net.edgeRef k h = (net.node a).neighbors.find h := by
  rw [edgeRef, nodeAt_of_ref ha, Option.bind_some]

theorem edgeAt_of_ref (he : net.edgeRef k h = some e) : net.edgeAt k h = some (net.edge e) := by
  rw [edgeAt, he, Option.map_some]

theorem nodeRef_of_edgeRef (he : net.edgeRef k h = some e) : ∃ a, net.nodeRef k = some a := by
  cases ha : net.nodeRef k with
  | none => rw [edgeRef, nodeAt, ha] at he; simp at he
  | some a => exact ⟨a, rfl⟩

/-! ## Invariants -/

/-- Well-formed tries whose objects are not shared. -/
structure Wf (net : HebbianNetwork) : Prop where
  nodes : net.nodes.Wf
  nodes_size : net.nodes.keySize = handleHashSize - 1
  stores : net.nodes.Stores net.nodeObjects
  neighbors : ∀ k a, net.nodeRef k = some a → (net.node a).neighbors.Wf
  neighbors_size : ∀ k a, net.nodeRef k = some a →
    (net.node a).neighbors.keySize = handleHashSize - 1
  edge_lt : ∀ k h e, net.edgeRef k h = some e → e < net.edgeObjects.next
  edge_inj : ∀ k h k' h' e, net.edgeRef k h = some e → net.edgeRef k' h' = some e →
    k = k' ∧ h = h'

/-- Every edge points to the nodes of its two handles, which are different and stored. -/
structure Ends (net : HebbianNetwork) : Prop where
  node1 : ∀ k h e, net.edgeRef k h = some e → (net.edge e).node1 = net.nodeRef k
  node2 : ∀ k h e, net.edgeRef k h = some e → (net.edge e).node2 = net.nodeRef h
  stored : ∀ k h e, net.edgeRef k h = some e → ∃ b, net.nodeRef h = some b
  ne : ∀ k h e, net.edgeRef k h = some e → k ≠ h

/-- What every complete request leaves. -/
structure Sound (net : HebbianNetwork) : Prop where
  wf : net.Wf
  ends : net.Ends

theorem Wf.node_inj (wf : net.Wf) (ha : net.nodeRef k = some a) (ha' : net.nodeRef k' = some a) :
    k = k' :=
  wf.stores.inj k k' a ha ha'

theorem Wf.isHandle (wf : net.Wf) (ha : net.nodeRef k = some a) : IsHandle k := by
  have hv := wf.nodes.find_valid ha
  rwa [wf.nodes_size] at hv

/-- What holds of the objects at bound addresses holds of the nodes of handles. -/
theorem forall_nodeAt {P : Node → Prop} :
    (∀ k a, net.nodeRef k = some a → P (net.node a)) ↔ ∀ k n, net.nodeAt k = some n → P n := by
  constructor
  · intro h k n hn
    obtain ⟨a, ha, rfl⟩ := Option.map_eq_some_iff.mp hn
    exact h k a ha
  · exact fun h k a ha => h k _ (nodeAt_of_ref ha)

/-- The neighbors of a node are a well-formed trie of handles. -/
def WfNeighbors (n : Node) : Prop :=
  n.neighbors.Wf ∧ n.neighbors.keySize = handleHashSize - 1

theorem Wf.wfNeighbors (wf : net.Wf) : ∀ k n, net.nodeAt k = some n → WfNeighbors n :=
  forall_nodeAt.mp fun k a ha => ⟨wf.neighbors k a ha, wf.neighbors_size k a ha⟩

/-- The pairs of handles name the edges. -/
theorem Wf.named (wf : net.Wf) :
    Named (fun p : Key × Key => net.edgeRef p.1 p.2) net.edgeObjects.next where
  lt p e he := wf.edge_lt p.1 p.2 e he
  inj p q e he he' := Prod.ext_iff.mpr (wf.edge_inj p.1 p.2 q.1 q.2 e he he')

theorem Wf.of_named (nodes : net.nodes.Wf) (size : net.nodes.keySize = handleHashSize - 1)
    (stores : net.nodes.Stores net.nodeObjects)
    (neighbors : ∀ k n, net.nodeAt k = some n → WfNeighbors n)
    (named : Named (fun p : Key × Key => net.edgeRef p.1 p.2) net.edgeObjects.next) : net.Wf where
  nodes := nodes
  nodes_size := size
  stores := stores
  neighbors k a ha := (forall_nodeAt.mpr neighbors k a ha).1
  neighbors_size k a ha := (forall_nodeAt.mpr neighbors k a ha).2
  edge_lt k h e he := named.lt (k, h) e he
  edge_inj k h k' h' e he he' := Prod.ext_iff.mp (named.inj (k, h) (k', h') e he he')

theorem lookupNode_eq (wf : net.Wf) (hk : IsHandle k) :
    lookupNode k net = .ok (net.nodeRef k) net := by
  unfold lookupNode
  rw [HandleTrie.lookup_eq wf.nodes (wf.nodes_size.symm ▸ hk)]
  rfl

theorem lookup_neighbor (wf : net.Wf) (ha : net.nodeRef k = some a) (hh : IsHandle h) :
    (net.node a).neighbors.lookup h = .ok (net.edgeRef k h) := by
  have hsize := wf.neighbors_size k a ha
  rw [edgeRef_of_ref ha]
  exact HandleTrie.lookup_eq (wf.neighbors k a ha) (by rwa [hsize])

/-! ## A new network -/

theorem nodeRef_new (k : Key) : new.nodeRef k = none := HandleTrie.find_new k

theorem edgeRef_new (k h : Key) : new.edgeRef k h = none := by
  rw [edgeRef, nodeAt, nodeRef_new]
  rfl

theorem sound_new : new.Sound where
  wf :=
    { nodes := HandleTrie.new_wf
      nodes_size := rfl
      stores := ⟨fun k a h => absurd ((nodeRef_new k).symm.trans h) (by simp),
        fun k _ a h => absurd ((nodeRef_new k).symm.trans h) (by simp)⟩
      neighbors := fun k a h => absurd ((nodeRef_new k).symm.trans h) (by simp)
      neighbors_size := fun k a h => absurd ((nodeRef_new k).symm.trans h) (by simp)
      edge_lt := fun k h e he => absurd ((edgeRef_new k h).symm.trans he) (by simp)
      edge_inj := fun k h _ _ e he => absurd ((edgeRef_new k h).symm.trans he) (by simp) }
  ends :=
    { node1 := fun k h e he => absurd ((edgeRef_new k h).symm.trans he) (by simp)
      node2 := fun k h e he => absurd ((edgeRef_new k h).symm.trans he) (by simp)
      stored := fun k h e he => absurd ((edgeRef_new k h).symm.trans he) (by simp)
      ne := fun k h e he => absurd ((edgeRef_new k h).symm.trans he) (by simp) }

/-! ## addNode -/

/-- What `addNode` leaves, with the address `a` bound to the handle. -/
structure AddedNode (net : HebbianNetwork) (k : Key) (a : Nat) (net' : HebbianNetwork) : Prop where
  largestArity : net'.largestArity = net.largestArity
  tokens : net'.tokensToDistribute = net.tokensToDistribute
  edgeObjects : net'.edgeObjects = net.edgeObjects
  nodeRef : net'.nodeRef = Function.update net.nodeRef k (some a)
  kept : net.nodeRef k = some a ∨ net.nodeRef k = none
  nodeAt : ∀ k', net'.nodeAt k'
    = if k' = k then some (((net.nodeAt k).map fun n => n.merge Node.new).getD Node.new)
      else net.nodeAt k'
  edgeRef : net'.edgeRef = net.edgeRef

theorem AddedNode.nodeRef_of_some (h : AddedNode net k a net') {b : Nat}
    (hb : net.nodeRef k' = some b) : net'.nodeRef k' = some b := by
  rw [h.nodeRef]
  by_cases hk : k' = k
  · subst hk
    rcases h.kept with hr | hr
    · rw [Function.update_self, ← hr, hb]
    · rw [hr] at hb; exact absurd hb (by simp)
  · rw [Function.update_of_ne hk, hb]

/-- **`add_node` is total on handles. It adds 1 to the count or makes the node.** -/
theorem addNode_spec (wf : net.Wf) (hk : IsHandle k) :
    ∃ a net', addNode k net = .ok a net' ∧ net'.Wf ∧ AddedNode net k a net' := by
  obtain ⟨a, nodes, objects, hrun, hi⟩ :=
    HandleTrie.insertNew_spec Node.merge wf.nodes (wf.nodes_size.symm ▸ hk) Node.new
      (fun e he => wf.stores.lt k e he)
  let net' : HebbianNetwork := { net with nodes := nodes, nodeObjects := objects }
  have hcall : addNode k net = .ok a net' := by
    unfold addNode
    rw [hrun]
  have hnode : ∀ k', net'.nodeAt k'
      = if k' = k then some (((net.nodeAt k).map fun n => n.merge Node.new).getD Node.new)
        else net.nodeAt k' := hi.object wf.stores
  have hedge : net'.edgeRef = net.edgeRef := by
    funext k' h
    rw [edgeRef, edgeRef, hnode k']
    by_cases hkk : k' = k
    · subst hkk
      rw [if_pos rfl]
      -- `merge` keeps the neighbors and a new node has none
      cases hn : net.nodeAt k' with
      | some n => rfl
      | none => exact HandleTrie.find_new h
    · rw [if_neg hkk]
  have hneigh : ∀ k' n, net'.nodeAt k' = some n → WfNeighbors n := by
    intro k' n hn
    rw [hnode k'] at hn
    by_cases hkk : k' = k
    · rw [if_pos hkk, Option.some.injEq] at hn
      rw [← hn]
      cases ho : net.nodeAt k with
      | some n₀ => exact wf.wfNeighbors k n₀ ho
      | none => exact ⟨HandleTrie.new_wf, rfl⟩
    · rw [if_neg hkk] at hn
      exact wf.wfNeighbors k' n hn
  have hnamed : Named (fun p : Key × Key => net'.edgeRef p.1 p.2) net'.edgeObjects.next := by
    rw [hedge]
    exact wf.named
  refine ⟨a, net', hcall,
    Wf.of_named hi.wf (hi.keySize.trans wf.nodes_size) (hi.stores wf.stores) hneigh hnamed, ?_⟩
  exact
    { largestArity := rfl
      tokens := rfl
      edgeObjects := rfl
      nodeRef := hi.find
      kept := hi.ref_cases.imp id And.left
      nodeAt := hnode
      edgeRef := hedge }

theorem edge_eq (h : net'.edgeObjects = net.edgeObjects) : net'.edge = net.edge := by
  funext e
  rw [edge, h]
  rfl

theorem AddedNode.ends (ends : net.Ends) (h : AddedNode net k a net') : net'.Ends := by
  have hedge := edge_eq h.edgeObjects
  constructor
  · intro k' h' e he
    rw [h.edgeRef] at he
    obtain ⟨b, hb⟩ := nodeRef_of_edgeRef he
    rw [hedge, ends.node1 k' h' e he, hb, h.nodeRef_of_some hb]
  · intro k' h' e he
    rw [h.edgeRef] at he
    obtain ⟨b, hb⟩ := ends.stored k' h' e he
    rw [hedge, ends.node2 k' h' e he, hb, h.nodeRef_of_some hb]
  · intro k' h' e he
    rw [h.edgeRef] at he
    obtain ⟨b, hb⟩ := ends.stored k' h' e he
    exact ⟨b, h.nodeRef_of_some hb⟩
  · intro k' h' e he
    rw [h.edgeRef] at he
    exact ends.ne k' h' e he

/-! ## Changing one node -/

/-- What a change of the node of `k` leaves that keeps its neighbors. -/
structure ModifiedNode (net : HebbianNetwork) (k : Key) (f : Node → Node)
    (net' : HebbianNetwork) : Prop where
  nodes : net'.nodes = net.nodes
  largestArity : net'.largestArity = net.largestArity
  tokens : net'.tokensToDistribute = net.tokensToDistribute
  edgeObjects : net'.edgeObjects = net.edgeObjects
  nodeAt : ∀ k', net'.nodeAt k' = if k' = k then (net.nodeAt k).map f else net.nodeAt k'
  edgeRef : net'.edgeRef = net.edgeRef

theorem nodeAt_modifyNode (wf : net.Wf) (ha : net.nodeRef k = some a) (f : Node → Node) (k' : Key) :
    (net.modifyNode a f).nodeAt k' = if k' = k then (net.nodeAt k).map f else net.nodeAt k' := by
  have href : ∀ k', (net.modifyNode a f).nodeRef k' = net.nodeRef k' := fun _ => rfl
  by_cases hk : k' = k
  · subst hk
    rw [if_pos rfl, nodeAt, href, ha, nodeAt_of_ref ha]
    exact congrArg some (Pool.modify_cell_self _ _ _)
  · rw [if_neg hk, nodeAt, nodeAt, href]
    cases hb : net.nodeRef k' with
    | none => rfl
    | some b =>
      refine congrArg some (Pool.modify_cell_ne _ _ fun hba => ?_)
      exact hk (wf.node_inj hb (hba ▸ ha))

theorem modifyNode_spec (wf : net.Wf) (ha : net.nodeRef k = some a) {f : Node → Node}
    (hf : ∀ n, (f n).neighbors = n.neighbors) :
    (net.modifyNode a f).Wf ∧ ModifiedNode net k f (net.modifyNode a f) := by
  have hnode := nodeAt_modifyNode wf ha f
  have hedge : (net.modifyNode a f).edgeRef = net.edgeRef := by
    funext k' h
    rw [edgeRef, edgeRef, hnode k']
    by_cases hk : k' = k
    · subst hk
      rw [if_pos rfl, nodeAt_of_ref ha, Option.map_some, Option.bind_some, Option.bind_some, hf]
    · rw [if_neg hk]
  have hneigh : ∀ k' n, (net.modifyNode a f).nodeAt k' = some n → WfNeighbors n := by
    intro k' n hn
    rw [hnode k'] at hn
    by_cases hk : k' = k
    · rw [if_pos hk, nodeAt_of_ref ha, Option.map_some, Option.some.injEq] at hn
      rw [← hn, WfNeighbors, hf]
      exact wf.wfNeighbors k _ (nodeAt_of_ref ha)
    · rw [if_neg hk] at hn
      exact wf.wfNeighbors k' n hn
  have hnamed : Named (fun p : Key × Key => (net.modifyNode a f).edgeRef p.1 p.2)
      (net.modifyNode a f).edgeObjects.next := by
    rw [hedge]
    exact wf.named
  exact ⟨Wf.of_named wf.nodes wf.nodes_size ⟨wf.stores.lt, wf.stores.inj⟩ hneigh hnamed,
    rfl, rfl, rfl, rfl, hnode, hedge⟩

theorem ModifiedNode.nodeRef {f : Node → Node} (h : ModifiedNode net k f net') :
    net'.nodeRef = net.nodeRef := by
  funext k'
  rw [HebbianNetwork.nodeRef, HebbianNetwork.nodeRef, h.nodes]

theorem ModifiedNode.ends {f : Node → Node} (ends : net.Ends) (h : ModifiedNode net k f net') :
    net'.Ends := by
  have hedge := edge_eq h.edgeObjects
  have href := h.nodeRef
  constructor <;> intro k' h' e he <;> rw [h.edgeRef] at he
  · rw [hedge, href]; exact ends.node1 k' h' e he
  · rw [hedge, href]; exact ends.node2 k' h' e he
  · rw [href]; exact ends.stored k' h' e he
  · exact ends.ne k' h' e he

/-! ## insertEdge -/

/-- What `insertEdge` leaves, with the address `e` bound to the pair. -/
structure InsertedEdge (net : HebbianNetwork) (k h : Key) (e : Nat)
    (net' : HebbianNetwork) : Prop where
  nodes : net'.nodes = net.nodes
  largestArity : net'.largestArity = net.largestArity
  tokens : net'.tokensToDistribute = net.tokensToDistribute
  fields : ∀ b, (net'.node b).count = (net.node b).count ∧
    (net'.node b).arity = (net.node b).arity ∧
    (net'.node b).importance = (net.node b).importance ∧
    (net'.node b).stimuliToSpread = (net.node b).stimuliToSpread
  edgeRef : ∀ k' h', net'.edgeRef k' h' = if k' = k ∧ h' = h then some e else net.edgeRef k' h'
  kept : net.edgeRef k h = some e ∨ net.edgeRef k h = none
  edge : net'.edge e = ((net.edgeAt k h).map fun x => x.merge Edge.new).getD Edge.new
  frame : ∀ k' h' e', net.edgeRef k' h' = some e' → e' ≠ e → net'.edge e' = net.edge e'

theorem InsertedEdge.nodeRef (hi : InsertedEdge net k h e net') : net'.nodeRef = net.nodeRef := by
  funext k'
  rw [HebbianNetwork.nodeRef, HebbianNetwork.nodeRef, hi.nodes]

theorem InsertedEdge.bound (hi : InsertedEdge net k h e net') : net'.edgeRef k h = some e := by
  rw [hi.edgeRef, if_pos ⟨rfl, rfl⟩]

/-- An edge that was bound is still bound, to the same object. -/
theorem InsertedEdge.edgeRef_of_some {e' : Nat} (hi : InsertedEdge net k h e net')
    (he' : net.edgeRef k' h' = some e') :
    net'.edgeRef k' h' = some e' := by
  rw [hi.edgeRef]
  by_cases hp : k' = k ∧ h' = h
  · obtain ⟨rfl, rfl⟩ := hp
    rw [if_pos ⟨rfl, rfl⟩]
    rcases hi.kept with hr | hr
    · rw [← hr, he']
    · rw [hr] at he'
      cases he'
  · rw [if_neg hp, he']

/-- An edge after the insertion: another one, the one that was there, or a new one. -/
theorem InsertedEdge.edge_cases {e' : Nat} (hi : InsertedEdge net k h e net') (wf' : net'.Wf)
    (he' : net'.edgeRef k' h' = some e') :
    (e' ≠ e ∧ net.edgeRef k' h' = some e' ∧ net'.edge e' = net.edge e') ∨
    (e' = e ∧ net.edgeRef k' h' = some e ∧ net'.edge e = (net.edge e).merge Edge.new) ∨
    (e' = e ∧ net.edgeRef k' h' = none ∧ net'.edge e = Edge.new) := by
  by_cases hee : e' = e
  · subst hee
    obtain ⟨rfl, rfl⟩ := wf'.edge_inj _ _ _ _ _ he' hi.bound
    rcases hi.kept with hr | hr
    · refine .inr (.inl ⟨rfl, hr, ?_⟩)
      rw [hi.edge, edgeAt_of_ref hr]
      rfl
    · refine .inr (.inr ⟨rfl, hr, ?_⟩)
      rw [hi.edge, edgeAt, hr]
      rfl
  · have hold : net.edgeRef k' h' = some e' := by
      rw [hi.edgeRef] at he'
      split at he'
      · exact absurd (Option.some.inj he').symm hee
      · exact he'
    exact .inl ⟨hee, hold, hi.frame k' h' e' hold hee⟩

theorem edgeRef_modifyNode (wf : net.Wf) (ha : net.nodeRef k = some a)
    (neighbors : HandleTrie Nat) (k' h' : Key) :
    (net.modifyNode a fun n => { n with neighbors := neighbors }).edgeRef k' h'
      = if k' = k then neighbors.find h' else net.edgeRef k' h' := by
  rw [edgeRef, nodeAt_modifyNode wf ha]
  by_cases hk : k' = k
  · rw [if_pos hk, if_pos hk, nodeAt_of_ref ha]
    rfl
  · rw [if_neg hk, if_neg hk, edgeRef]

/-- **The first step of `add_asymmetric_edge` adds 1 to the count or makes the edge.** -/
theorem insertEdge_spec (wf : net.Wf) (ha : net.nodeRef k = some a) (hh : IsHandle h) :
    ∃ e net', insertEdge a h net = .ok e net' ∧ net'.Wf ∧ InsertedEdge net k h e net' := by
  have hsize := wf.neighbors_size k a ha
  have hlt : ∀ h e, (net.node a).neighbors.find h = some e → e < net.edgeObjects.next :=
    fun h e he => wf.edge_lt k h e (by rw [edgeRef_of_ref ha, he])
  obtain ⟨e, neighbors, objects, hrun, hi⟩ :=
    HandleTrie.insertNew_spec Edge.merge (wf.neighbors k a ha) (hsize.symm ▸ hh) Edge.new (hlt h)
  let linked := net.modifyNode a fun n => { n with neighbors := neighbors }
  let net' : HebbianNetwork := { linked with edgeObjects := objects }
  have hcall : insertEdge a h net = .ok e net' := by
    unfold insertEdge
    rw [hrun]
  have hcases : net.edgeRef k h = some e ∨ net.edgeRef k h = none ∧ e = net.edgeObjects.next := by
    rw [edgeRef_of_ref ha]
    exact hi.ref_cases
  have hedgeRef : ∀ k' h', net'.edgeRef k' h'
      = if k' = k ∧ h' = h then some e else net.edgeRef k' h' := by
    intro k' h'
    refine (edgeRef_modifyNode wf ha neighbors k' h').trans ?_
    by_cases hk : k' = k
    · rw [if_pos hk, hi.find, Function.update_apply, hk, edgeRef_of_ref ha]
      simp only [true_and]
    · rw [if_neg hk, if_neg fun hp => hk hp.1]
  -- only the pair of the call got another address, and it is of no other pair
  have hnamed : Named (fun p : Key × Key => net'.edgeRef p.1 p.2) net'.edgeObjects.next := by
    have hnext : net'.edgeObjects.next = net.edgeObjects.next + 1 := hi.next
    have hbind : ∀ q : Key × Key, net'.edgeRef q.1 q.2
        = if q = (k, h) then some e else net.edgeRef q.1 q.2 := fun q => by
      simp only [hedgeRef, Prod.ext_iff]
    rw [hnext]
    exact wf.named.bind hcases hbind
  have hneigh : ∀ k' n, net'.nodeAt k' = some n → WfNeighbors n := by
    intro k' n hn
    have hnode : linked.nodeAt k' = some n := hn
    rw [nodeAt_modifyNode wf ha] at hnode
    by_cases hk : k' = k
    · rw [if_pos hk, nodeAt_of_ref ha, Option.map_some, Option.some.injEq] at hnode
      rw [← hnode]
      exact ⟨hi.wf, hi.keySize.trans hsize⟩
    · rw [if_neg hk] at hnode
      exact wf.wfNeighbors k' n hnode
  have hfield : ∀ {β : Type} (g : Node → β), (∀ n, g { n with neighbors := neighbors } = g n) →
      ∀ b, g (net'.node b) = g (net.node b) := fun g hg b =>
    Pool.modify_cell_proj net.nodeObjects a b _ g hg
  refine ⟨e, net', hcall, Wf.of_named wf.nodes wf.nodes_size ⟨wf.stores.lt, wf.stores.inj⟩
    hneigh hnamed, ?_⟩
  exact
    { nodes := rfl
      largestArity := rfl
      tokens := rfl
      fields := fun b => ⟨hfield Node.count (fun _ => rfl) b, hfield Node.arity (fun _ => rfl) b,
        hfield Node.importance (fun _ => rfl) b, hfield Node.stimuliToSpread (fun _ => rfl) b⟩
      edgeRef := hedgeRef
      kept := hcases.imp id And.left
      edge := by
        rw [edgeAt, edgeRef_of_ref ha, Option.map_map]
        exact hi.cell
      frame := fun k' h' e' he' hne => hi.frame e' (wf.edge_lt k' h' e' he') hne }

/-! ## initEdge -/

/-- What the guarded statements of `initEdge` leave. -/
structure InitialisedEdge (net : HebbianNetwork) (k : Key) (a e : Nat) (node2 : Option Nat)
    (net' : HebbianNetwork) : Prop where
  nodes : net'.nodes = net.nodes
  tokens : net'.tokensToDistribute = net.tokensToDistribute
  largestArity : net'.largestArity
    = if net.largestArity < (net.node a).arity + 1 then (net.node a).arity + 1
      else net.largestArity
  nodeAt : ∀ k', net'.nodeAt k'
    = if k' = k then (net.nodeAt k).map fun n => { n with arity := n.arity + 1 }
      else net.nodeAt k'
  edgeRef : net'.edgeRef = net.edgeRef
  edge : ∀ e', net'.edge e'
    = if e' = e then { net.edge e with node1 := some a, node2 := node2 } else net.edge e'

theorem InitialisedEdge.nodeRef {node2 : Option Nat} (hi : InitialisedEdge net k a e node2 net') :
    net'.nodeRef = net.nodeRef := by
  funext k'
  rw [HebbianNetwork.nodeRef, HebbianNetwork.nodeRef, hi.nodes]

theorem initEdge_skip {node2 : Option Nat} (hc : (net.edge e).count ≠ 1) :
    initEdge e a node2 net = .ok () net := by
  unfold initEdge
  rw [if_neg hc]

/-- **The second step of `add_asymmetric_edge`, when it finds the count to be 1.** -/
theorem initEdge_spec (wf : net.Wf) (ha : net.nodeRef k = some a) (node2 : Option Nat)
    (hc : (net.edge e).count = 1) :
    ∃ net', initEdge e a node2 net = .ok () net' ∧ net'.Wf ∧
      InitialisedEdge net k a e node2 net' := by
  obtain ⟨wf₁, h₁⟩ := modifyNode_spec wf ha (f := fun n => { n with arity := n.arity + 1 })
    fun _ => rfl
  have hobj : (net.setEnds e a node2).edgeObjects
      = net.edgeObjects.modify e fun x => { x with node1 := some a, node2 := node2 } := rfl
  refine ⟨net.setEnds e a node2, by unfold initEdge; rw [if_pos hc], ?_, ?_⟩
  · exact Wf.of_named wf₁.nodes wf₁.nodes_size wf₁.stores wf₁.wfNeighbors wf₁.named
  · exact
      { nodes := rfl
        tokens := rfl
        largestArity := rfl
        nodeAt := h₁.nodeAt
        edgeRef := h₁.edgeRef
        edge := fun e' => by
          rw [HebbianNetwork.edge, hobj]
          by_cases hee : e' = e
          · rw [if_pos hee, hee, Pool.modify_cell_self]
            rfl
          · rw [if_neg hee, Pool.modify_cell_ne _ _ hee]
            rfl }

end HebbianNetwork

end AttentionBroker
