import Mathlib.Data.Rat.Defs
import AttentionBroker.Trie.Objects

/-!
# `HebbianNetwork` and `ExactCountHebbianUpdater`

`attention_broker_server/HebbianNetwork.{h,cc}` and `HebbianNetworkUpdater.cc`. A network
is a trie of nodes, and every node has a trie of edges. Node and edge objects live in
pools, so the same object can be reached from the trie and from `node1` and `node2`.

Every function runs alone, except that `addAsymmetricEdge` is built from two steps,
`insertEdge` and `initEdge`, between which the source holds no lock.
-/

namespace AttentionBroker

open Infra

/-- `double` in the source. Here exact, where a division by zero reads as 0. -/
abbrev ImportanceType := ℚ

/-- `HANDLE_HASH_SIZE`: the characters of a handle and the NUL. -/
def handleHashSize : Nat := 33

/-- A 32-character lowercase hex handle. -/
abbrev IsHandle (k : Key) : Prop := ValidKey (handleHashSize - 1) k

/-- A trie that takes handles. -/
def newHandleTrie {ρ : Type} : HandleTrie ρ :=
  HandleTrie.new (handleHashSize - 1) (by decide) (by decide)

/-! ## Objects -/

/-- `HebbianNetwork::Node`. -/
structure Node where
  arity : UInt32
  count : UInt32
  importance : ImportanceType
  stimuliToSpread : ImportanceType
  neighbors : HandleTrie Nat

/-- `Node::Node`. -/
def Node.new : Node :=
  { arity := 0, count := 1, importance := 0, stimuliToSpread := 0, neighbors := newHandleTrie }

/-- `Node::merge`. -/
def Node.merge (this other : Node) : Node :=
  { this with count := this.count + other.count, importance := this.importance + other.importance }

/-- `HebbianNetwork::Edge`. -/
structure Edge where
  count : UInt32
  node1 : Option Nat
  node2 : Option Nat

/-- `Edge::Edge`. -/
def Edge.new : Edge := { count := 1, node1 := none, node2 := none }

/-- `Edge::merge`. -/
def Edge.merge (this other : Edge) : Edge := { this with count := this.count + other.count }

/-- `HebbianNetwork`, with the objects its tries point to. -/
structure HebbianNetwork where
  largestArity : UInt32
  nodes : HandleTrie Nat
  tokensToDistribute : ImportanceType
  nodeObjects : Pool Node
  edgeObjects : Pool Edge

/-- A call on a network. A call that raises leaves the network it had reached. -/
abbrev NetM := EStateM Fault HebbianNetwork

namespace NetM

variable {α β : Type} {x : NetM α} {f : α → NetM β} {net net' : HebbianNetwork} {v : α} {e : Fault}

theorem bind_ok (h : x net = .ok v net') : (x >>= f) net = f v net' := by
  show EStateM.bind x f net = _
  unfold EStateM.bind
  rw [h]

theorem bind_error (h : x net = .error e net') : (x >>= f) net = .error e net' := by
  show EStateM.bind x f net = _
  unfold EStateM.bind
  rw [h]

theorem bind_eq_ok {w : β} :
    (x >>= f) net = .ok w net' ↔ ∃ v net₁, x net = .ok v net₁ ∧ f v net₁ = .ok w net' := by
  constructor
  · intro h
    match hx : x net with
    | .ok v net₁ => exact ⟨v, net₁, rfl, (bind_ok hx).symm.trans h⟩
    | .error e net₁ => cases (bind_error hx).symm.trans h
  · rintro ⟨v, net₁, hx, hf⟩
    exact (bind_ok hx).trans hf

theorem discard_eq_ok : (discard x) net = .ok () net' ↔ ∃ v, x net = .ok v net' := by
  constructor
  · intro h
    obtain ⟨v, net₁, hx, hpure⟩ := bind_eq_ok (f := fun _ => pure ()).mp h
    cases hpure
    exact ⟨v, hx⟩
  · exact fun ⟨v, hx⟩ => bind_ok (f := fun _ => pure ()) hx

theorem discard_ok (h : x net = .ok v net') : (discard x) net = .ok () net' :=
  bind_ok (f := fun _ => pure ()) h

/-- The rule for a loop over a list whose calls all return, on an invariant and a view. -/
theorem forM_ok {γ : Type} (call : α → NetM Unit) (P : HebbianNetwork → Prop)
    (view : HebbianNetwork → γ) (step : γ → α → γ) : ∀ (l : List α),
    (∀ a ∈ l, ∀ net, P net → ∃ net', call a net = .ok () net' ∧ P net' ∧
      view net' = step (view net) a) →
    ∀ net, P net → ∃ net', l.forM call net = .ok () net' ∧ P net' ∧
      view net' = l.foldl step (view net)
  | [], _, net, h => ⟨net, rfl, h, rfl⟩
  | a :: l, hcall, net, h => by
    obtain ⟨net₁, hrun₁, h₁, hview₁⟩ := hcall a List.mem_cons_self net h
    obtain ⟨net₂, hrun₂, h₂, hview₂⟩ :=
      forM_ok call P view step l (fun b hb => hcall b (List.mem_cons_of_mem _ hb)) net₁ h₁
    refine ⟨net₂, (bind_ok hrun₁).trans hrun₂, h₂, ?_⟩
    rw [hview₂, hview₁, List.foldl_cons]

end NetM

/-- `*p`. -/
def deref (p : Option Nat) : Except Fault Nat :=
  match p with
  | none => .error .nullPointer
  | some a => .ok a

namespace HebbianNetwork

/-- `HebbianNetwork::HebbianNetwork`. -/
def new : HebbianNetwork where
  largestArity := 0
  nodes := newHandleTrie
  tokensToDistribute := 1
  nodeObjects := Pool.empty Node.new
  edgeObjects := Pool.empty Edge.new

/-- The node object at an address. -/
def node (net : HebbianNetwork) (a : Nat) : Node := net.nodeObjects.cell a

/-- The edge object at an address. -/
def edge (net : HebbianNetwork) (a : Nat) : Edge := net.edgeObjects.cell a

/-- Changes the node object at an address. -/
def modifyNode (net : HebbianNetwork) (a : Nat) (f : Node → Node) : HebbianNetwork :=
  { net with nodeObjects := net.nodeObjects.modify a f }

/-! ## Nodes -/

/-- `HebbianNetwork::add_node`. -/
def addNode (handle : Key) : NetM Nat := fun net =>
  match net.nodes.insertNew Node.merge handle Node.new net.nodeObjects with
  | .ok (a, nodes, objects) => .ok a { net with nodes := nodes, nodeObjects := objects }
  | .error e => .error e net

/-- `HebbianNetwork::lookup_node`. -/
def lookupNode (handle : Key) : NetM (Option Nat) := fun net =>
  match net.nodes.lookup handle with
  | .ok o => .ok o net
  | .error e => .error e net

/-! ## Edges -/

/-- `node1->neighbors->insert(handle2, new Edge())`. -/
def insertEdge (node1 : Nat) (handle2 : Key) : NetM Nat := fun net =>
  match (net.node node1).neighbors.insertNew Edge.merge handle2 Edge.new net.edgeObjects with
  | .ok (edge, neighbors, objects) =>
    .ok edge
      { net.modifyNode node1 fun n => { n with neighbors := neighbors } with
        edgeObjects := objects }
  | .error e => .error e net

/-- The statements for an edge that is added for the first time. -/
def setEnds (net : HebbianNetwork) (edge node1 : Nat) (node2 : Option Nat) : HebbianNetwork :=
  let arity := (net.node node1).arity + 1
  { net with
    edgeObjects := net.edgeObjects.modify edge fun e =>
      { e with node1 := some node1, node2 := node2 }
    nodeObjects := net.nodeObjects.modify node1 fun n => { n with arity := n.arity + 1 }
    largestArity := if arity > net.largestArity then arity else net.largestArity }

/-- The test `edge->count == 1` and what it guards. -/
def initEdge (edge node1 : Nat) (node2 : Option Nat) : NetM Unit := fun net =>
  if (net.edge edge).count = 1 then .ok () (net.setEnds edge node1 node2) else .ok () net

/-- `HebbianNetwork::add_asymmetric_edge`. -/
def addAsymmetricEdge (handle1 handle2 : Key) (node1 node2 : Option Nat) : NetM Nat := do
  let node1 ← match node1 with
    | none => lookupNode handle1
    | some a => pure (some a)
  match node1 with
  | none => throw .nullPointer
  | some a =>
    let edge ← insertEdge a handle2
    initEdge edge a node2
    return edge

/-- `HebbianNetwork::add_symmetric_edge`. -/
def addSymmetricEdge (handle1 handle2 : Key) (node1 node2 : Option Nat) : NetM Unit := do
  discard (addAsymmetricEdge handle1 handle2 node1 node2)
  discard (addAsymmetricEdge handle2 handle1 node2 node1)

/-! ## Reads -/

/-- `HebbianNetwork::get_node_count`. -/
def getNodeCount (net : HebbianNetwork) (handle : Key) : Except Fault UInt32 := do
  match ← net.nodes.lookup handle with
  | none => .ok 0
  | some a => .ok (net.node a).count

/-- `HebbianNetwork::get_node_importance`. -/
def getNodeImportance (net : HebbianNetwork) (handle : Key) : Except Fault ImportanceType := do
  match ← net.nodes.lookup handle with
  | none => .ok 0
  | some a => .ok (net.node a).importance

/-- `HebbianNetwork::get_asymmetric_edge_count`. -/
def getAsymmetricEdgeCount (net : HebbianNetwork) (handle1 handle2 : Key) :
    Except Fault UInt32 := do
  match ← net.nodes.lookup handle1 with
  | none => .ok 0
  | some source =>
    match ← (net.node source).neighbors.lookup handle2 with
    | none => .ok 0
    | some e => .ok (net.edge e).count

/-! ## Tokens and traversal -/

/-- `HebbianNetwork::alienate_tokens`. -/
def alienateTokens : NetM ImportanceType := fun net =>
  .ok net.tokensToDistribute { net with tokensToDistribute := 0 }

/--
`HebbianNetwork::visit_nodes`. The visit function may change the objects of the network.

The visit functions of the broker fail only where they follow a NULL pointer, and what the
network is after that is not modelled.
-/
def visitNodes {δ : Type} (keepRootLocked : Bool)
    (visit : TrieNode Nat → HebbianNetwork × δ → Except Fault (Bool × HebbianNetwork × δ))
    (data : δ) : NetM δ := fun net =>
  match net.nodes.traverse keepRootLocked visit (net, data) with
  | .ok (net, data) => .ok data net
  | .error e => .error e net

/-! ## `ExactCountHebbianUpdater` -/

/--
`ExactCountHebbianUpdater::correlation` on the network of the request.

`std::string::compare` orders the bytes as unsigned numbers and a prefix before what
extends it, which is the order of lists.
-/
def correlation (handleList : List Key) : NetM Unit := do
  handleList.forM fun s => discard (addNode s)
  handleList.forM fun s1 => do
    let node1 ← lookupNode s1
    handleList.forM fun s2 =>
      if s1 < s2 then do
        let node2 ← lookupNode s2
        addSymmetricEdge s1 s2 node1 node2
      else pure ()

end HebbianNetwork

end AttentionBroker
