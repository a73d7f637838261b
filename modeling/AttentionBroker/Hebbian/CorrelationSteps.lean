import AttentionBroker.Hebbian.CorrelationThreads
import AttentionBroker.Hebbian.Representation

/-!
# What the steps of a worker do

A step of a worker adds a node, inserts an edge, retouches the network or only reads it.
`AddCall.outcome` and `CorrelationWorker.outcome` say this once for all steps, with everything that
the invariants of the next modules need, and that no step fails.
-/

namespace AttentionBroker

open Infra HebbianNetwork

namespace Graph

variable {κ : Type*} {g g₁ g' : Graph κ}

/-- The graphs differ in arities at most. -/
structure SameCounts (g g' : Graph κ) : Prop where
  nodes : g'.nodes = g.nodes
  count : g'.count = g.count
  neighbors : g'.neighbors = g.neighbors
  edgeCount : g'.edgeCount = g.edgeCount
  importance : g'.importance = g.importance
  stimuli : g'.stimuli = g.stimuli
  tokens : g'.tokens = g.tokens

theorem SameCounts.symm (h : SameCounts g g₁) : SameCounts g₁ g where
  nodes := h.nodes.symm
  count := h.count.symm
  neighbors := h.neighbors.symm
  edgeCount := h.edgeCount.symm
  importance := h.importance.symm
  stimuli := h.stimuli.symm
  tokens := h.tokens.symm

theorem SameCounts.trans (h : SameCounts g g₁) (h' : SameCounts g₁ g') : SameCounts g g' where
  nodes := h'.nodes.trans h.nodes
  count := h'.count.trans h.count
  neighbors := h'.neighbors.trans h.neighbors
  edgeCount := h'.edgeCount.trans h.edgeCount
  importance := h'.importance.trans h.importance
  stimuli := h'.stimuli.trans h.stimuli
  tokens := h'.tokens.trans h.tokens

end Graph

namespace HebbianNetwork

variable {net net' : HebbianNetwork} {k h : Key} {a e : Nat}

/-! ## What a step does to the network -/

/-- Whatever is stored is still stored, at the same address. -/
structure Grows (net net' : HebbianNetwork) : Prop where
  node : ∀ k a, net.nodeRef k = some a → net'.nodeRef k = some a
  edge : ∀ k h e, net.edgeRef k h = some e → net'.edgeRef k h = some e

/-- The two networks differ in arities and in the ends of edges at most. -/
structure Retouched (net net' : HebbianNetwork) : Prop where
  nodes : net'.nodes = net.nodes
  tokens : net'.tokensToDistribute = net.tokensToDistribute
  nodeObjects : net'.nodeObjects.next = net.nodeObjects.next
  edgeObjects : net'.edgeObjects.next = net.edgeObjects.next
  node : ∀ a, ∃ arity, net'.node a = { net.node a with arity := arity }
  edge : ∀ e, (net'.edge e).count = (net.edge e).count

namespace Retouched

theorem refl (net : HebbianNetwork) : Retouched net net where
  nodes := rfl
  tokens := rfl
  nodeObjects := rfl
  edgeObjects := rfl
  node _ := ⟨_, rfl⟩
  edge _ := rfl

theorem setEdge (net : HebbianNetwork) (e : Nat) (f : Edge → Edge)
    (hf : ∀ x, (f x).count = x.count) :
    Retouched net { net with edgeObjects := net.edgeObjects.modify e f } where
  nodes := rfl
  tokens := rfl
  nodeObjects := rfl
  edgeObjects := rfl
  node _ := ⟨_, rfl⟩
  edge e' := Pool.modify_cell_proj net.edgeObjects e e' f Edge.count hf

theorem setArity (net : HebbianNetwork) (a : Nat) (arity : UInt32) :
    Retouched net (net.modifyNode a fun n => { n with arity := arity }) where
  nodes := rfl
  tokens := rfl
  nodeObjects := rfl
  edgeObjects := rfl
  node b := by
    by_cases hb : b = a
    · subst hb
      exact ⟨arity, Pool.modify_cell_self net.nodeObjects b fun n => { n with arity := arity }⟩
    · exact ⟨(net.node b).arity,
        Pool.modify_cell_ne net.nodeObjects (fun n => { n with arity := arity }) hb⟩
  edge _ := rfl

theorem setLargest (net : HebbianNetwork) (arity : UInt32) :
    Retouched net { net with largestArity := arity } where
  nodes := rfl
  tokens := rfl
  nodeObjects := rfl
  edgeObjects := rfl
  node _ := ⟨_, rfl⟩
  edge _ := rfl

theorem nodeRef (h : Retouched net net') : net'.nodeRef = net.nodeRef := by
  funext k
  rw [HebbianNetwork.nodeRef, HebbianNetwork.nodeRef, h.nodes]

theorem neighbors (h : Retouched net net') (a : Nat) :
    (net'.node a).neighbors = (net.node a).neighbors := by
  obtain ⟨arity, ha⟩ := h.node a
  rw [ha]

theorem edgeRef (h : Retouched net net') : net'.edgeRef = net.edgeRef := by
  funext k h'
  cases ha : net.nodeRef k with
  | none =>
    have ha' := (congrFun h.nodeRef k).trans ha
    rw [HebbianNetwork.edgeRef, HebbianNetwork.edgeRef, nodeAt, nodeAt, ha, ha']
    rfl
  | some a =>
    have ha' := (congrFun h.nodeRef k).trans ha
    rw [edgeRef_of_ref ha, edgeRef_of_ref ha', h.neighbors]

theorem wf (h : Retouched net net') (wf : net.Wf) : net'.Wf where
  nodes := h.nodes ▸ wf.nodes
  nodes_size := h.nodes ▸ wf.nodes_size
  stores := by
    have hs := wf.stores
    rw [← h.nodes] at hs
    exact ⟨fun k a ha => h.nodeObjects ▸ hs.lt k a ha, hs.inj⟩
  neighbors k a ha := by
    rw [h.neighbors]
    exact wf.neighbors k a (by rwa [← h.nodeRef])
  neighbors_size k a ha := by
    rw [h.neighbors]
    exact wf.neighbors_size k a (by rwa [← h.nodeRef])
  edge_lt k h' e he := by
    rw [h.edgeObjects]
    exact wf.edge_lt k h' e (by rwa [← h.edgeRef])
  edge_inj := by
    rw [h.edgeRef]
    exact wf.edge_inj

theorem grows (h : Retouched net net') : Grows net net' :=
  ⟨fun _ _ ha => h.nodeRef ▸ ha, fun _ _ _ he => h.edgeRef ▸ he⟩

theorem sameCounts (h : Retouched net net') : net.graph.SameCounts net'.graph := by
  have hfield : ∀ {β : Type} (f : Node → β) (d : β),
      (∀ n arity, f { n with arity := arity } = f n) → net'.nodeField f d = net.nodeField f d := by
    intro β f d hf
    funext k
    cases ha : net.nodeRef k with
    | none => rw [nodeField_none ha, nodeField_none ((congrFun h.nodeRef k).trans ha)]
    | some a =>
      obtain ⟨arity, hn⟩ := h.node a
      rw [nodeField_of_ref ha, nodeField_of_ref ((congrFun h.nodeRef k).trans ha), hn, hf]
  exact
    { nodes := congrArg HandleTrie.keySet h.nodes
      count := hfield Node.count 0 fun _ _ => rfl
      neighbors := hfield (fun n => n.neighbors.keySet) ∅ fun _ _ => rfl
      edgeCount := by
        funext k h'
        cases he : net.edgeRef k h' with
        | none => rw [graph_edgeCount_none he, graph_edgeCount_none (h.edgeRef ▸ he)]
        | some e => rw [graph_edgeCount he, graph_edgeCount (h.edgeRef ▸ he), h.edge]
      importance := hfield Node.importance 0 fun _ _ => rfl
      stimuli := hfield Node.stimuliToSpread 0 fun _ _ => rfl
      tokens := h.tokens }

end Retouched

/-! ## What the steps do to the graph -/

theorem graph_setEdge (net : HebbianNetwork) (e : Nat) (f : Edge → Edge)
    (hf : ∀ x, (f x).count = x.count) :
    ({ net with edgeObjects := net.edgeObjects.modify e f } : HebbianNetwork).graph
      = net.graph := by
  have hs := (Retouched.setEdge net e f hf).sameCounts
  exact Graph.ext rfl rfl rfl rfl rfl rfl hs.edgeCount rfl rfl

theorem graph_setArity (wf : net.Wf) (ha : net.nodeRef k = some a) (arity : UInt32) :
    (net.modifyNode a fun n => { n with arity := arity }).graph
      = { net.graph with arity := Function.update net.graph.arity k arity } := by
  have hs := (Retouched.setArity net a arity).sameCounts
  refine Graph.ext hs.nodes hs.count ?_ hs.importance hs.stimuli hs.neighbors hs.edgeCount rfl rfl
  funext k'
  show (((net.modifyNode a fun n => { n with arity := arity }).nodeAt k').map Node.arity).getD 0
    = Function.update net.graph.arity k arity k'
  rw [nodeAt_modifyNode wf ha]
  by_cases hk : k' = k
  · rw [if_pos hk, hk, Function.update_self, nodeAt_of_ref ha]
    rfl
  · rw [if_neg hk, Function.update_of_ne hk]
    rfl

/-! ## The ends of edges -/

/-- An end of an edge that is not NULL is the node of its handle. -/
def EndsOrNull (net : HebbianNetwork) : Prop :=
  ∀ k h e, net.edgeRef k h = some e →
    (∀ a, (net.edge e).node1 = some a → net.nodeRef k = some a) ∧
      ∀ b, (net.edge e).node2 = some b → net.nodeRef h = some b

namespace EndsOrNull

theorem addNode (h : net.EndsOrNull) (hadd : AddedNode net k a net') : net'.EndsOrNull := by
  intro k' h' e he
  rw [hadd.edgeRef] at he
  obtain ⟨h1, h2⟩ := h k' h' e he
  rw [edge_eq hadd.edgeObjects]
  exact ⟨fun a ha => hadd.nodeRef_of_some (h1 a ha), fun b hb => hadd.nodeRef_of_some (h2 b hb)⟩

theorem insertEdge (ends : net.EndsOrNull) (wf' : net'.Wf) (hi : InsertedEdge net k h e net') :
    net'.EndsOrNull := by
  intro k' h' e' he'
  rw [hi.nodeRef]
  rcases hi.edge_cases wf' he' with ⟨-, hr, hedge⟩ | ⟨rfl, hr, hedge⟩ | ⟨rfl, -, hedge⟩
  · rw [hedge]
    exact ends k' h' e' hr
  · rw [hedge]
    exact ends k' h' e' hr
  · rw [hedge]
    exact ⟨nofun, nofun⟩

theorem retouched (h : net.EndsOrNull) (hr : Retouched net net')
    (hedge : net'.edgeObjects = net.edgeObjects) : net'.EndsOrNull := by
  intro k' h' e he
  rw [hr.edgeRef] at he
  rw [hr.nodeRef, edge_eq hedge]
  exact h k' h' e he

/-- The edge of a pair gets ends that are the nodes of its handles. -/
theorem setEdge (ends : net.EndsOrNull) (wf : net.Wf) (he : net.edgeRef k h = some e)
    {f : Edge → Edge} (hcount : ∀ x, (f x).count = x.count)
    (h1 : ∀ x a, (f x).node1 = some a → x.node1 = some a ∨ net.nodeRef k = some a)
    (h2 : ∀ x b, (f x).node2 = some b → x.node2 = some b ∨ net.nodeRef h = some b) :
    ({ net with edgeObjects := net.edgeObjects.modify e f } : HebbianNetwork).EndsOrNull := by
  intro k' h' e' he'
  rw [(Retouched.setEdge net e f hcount).edgeRef] at he'
  rw [(Retouched.setEdge net e f hcount).nodeRef]
  obtain ⟨hold1, hold2⟩ := ends k' h' e' he'
  by_cases hee : e' = e
  · subst hee
    obtain ⟨rfl, rfl⟩ := wf.edge_inj _ _ _ _ _ he he'
    have hcell : ({ net with edgeObjects := net.edgeObjects.modify e' f } : HebbianNetwork).edge e'
        = f (net.edge e') := Pool.modify_cell_self net.edgeObjects e' f
    rw [hcell]
    exact ⟨fun a ha => (h1 _ a ha).elim (hold1 a) id, fun b hb => (h2 _ b hb).elim (hold2 b) id⟩
  · have hcell : ({ net with edgeObjects := net.edgeObjects.modify e f } : HebbianNetwork).edge e'
        = net.edge e' := Pool.modify_cell_ne net.edgeObjects f hee
    rw [hcell]
    exact ⟨hold1, hold2⟩

end EndsOrNull

/-! ## What the steps add -/

theorem AddedNode.grows (h : AddedNode net k a net') : Grows net net' :=
  ⟨fun _ _ hb => h.nodeRef_of_some hb, fun _ _ _ he => h.edgeRef ▸ he⟩

theorem InsertedEdge.grows (hi : InsertedEdge net k h e net') : Grows net net' :=
  ⟨fun _ _ hb => hi.nodeRef ▸ hb, fun _ _ _ he => hi.edgeRef_of_some he⟩

/-- What a step adds to the network: a node, an edge or nothing. -/
inductive Adds (net net' : HebbianNetwork) : List Key → List (Key × Key) → Prop
  | nothing (h : Retouched net net') : Adds net net' [] []
  | node {k : Key} {a : Nat} (h : AddedNode net k a net') : Adds net net' [k] []
  | edge {k h : Key} {e : Nat} (hi : InsertedEdge net k h e net') : Adds net net' [] [(k, h)]

theorem Adds.grows {ns : List Key} {ps : List (Key × Key)} (h : Adds net net' ns ps) :
    Grows net net' := by
  cases h with
  | nothing h => exact h.grows
  | node h => exact h.grows
  | edge hi => exact hi.grows

end HebbianNetwork

/-! ## The steps of a call -/

namespace AddStage

/-- The edge is not inserted yet. -/
@[simp] def adds : AddStage → Bool
  | called | inserting => true
  | _ => false

/-- The call has `largest_arity_mutex`. -/
@[simp] def holds : AddStage → Bool
  | comparing | raising | unlocking => true
  | _ => false

/-- The edge that the call has inserted and is not done with. -/
@[simp] def current : AddStage → Option Nat
  | inserted e | settingNode1 e | settingNode2 e => some e
  | _ => none

/-- A bound on the steps that the call still takes, and its return. -/
@[simp] def toGo : AddStage → Nat
  | called => 12
  | inserting => 11
  | inserted _ => 10
  | settingNode1 _ => 9
  | settingNode2 _ => 8
  | readingArity => 7
  | writingArity _ => 6
  | locking => 5
  | comparing => 4
  | raising => 3
  | unlocking => 2
  | returned => 1

end AddStage

namespace AddCall

variable {call call' : AddCall} {s s' : SharedNetwork} {net net' : HebbianNetwork} {a e : Nat}

/-- The edge, until it is inserted. -/
def toAdd (call : AddCall) : List (Key × Key) :=
  if call.stage.adds then [(call.handle1, call.handle2)] else []

/-- The pointers of the call point to the objects of its handles. -/
structure InPlace (net : HebbianNetwork) (call : AddCall) : Prop where
  source : ∃ a, call.node1 = some a ∧ net.nodeRef call.handle1 = some a
  target : ∃ b, call.node2 = some b ∧ net.nodeRef call.handle2 = some b
  edge : ∀ e, call.stage.current = some e → net.edgeRef call.handle1 call.handle2 = some e

theorem InPlace.grows (h : call.InPlace net) (hg : Grows net net') : call.InPlace net' where
  source := h.source.imp fun _ ha => ⟨ha.1, hg.node _ _ ha.2⟩
  target := h.target.imp fun _ hb => ⟨hb.1, hg.node _ _ hb.2⟩
  edge e he := hg.edge _ _ e (h.edge e he)

/-- The call finds the edge to be new, or has found it and not written the arity yet. -/
def claims (g : Graph Key) (call : AddCall) : Bool :=
  match call.stage with
  | .inserted _ => g.edgeCount call.handle1 call.handle2 = 1
  | .settingNode1 _ | .settingNode2 _ | .readingArity | .writingArity _ => true
  | _ => false

/-- What a step of a call does to the graph. -/
inductive Moves (g : Graph Key) (call : AddCall) : Graph Key → AddStage → Prop
  | silent {stage : AddStage} (hs : call.stage ≠ .inserting)
      (hclaims : ({ call with stage := stage } : AddCall).claims g = true → call.claims g = true)
      (hwriting : ∀ arity, stage ≠ .writingArity arity) : Moves g call g stage
  | inserted {e : Nat} (hs : call.stage = .inserting) :
      Moves g call (g.insertEdge call.handle1 call.handle2) (.inserted e)
  | loaded (hs : call.stage = .readingArity) :
      Moves g call g (.writingArity (g.arity call.handle1))
  | stored {arity : UInt32} (hs : call.stage = .writingArity arity) :
      Moves g call { g with arity := Function.update g.arity call.handle1 (arity + 1) } .locking
  | raised (hs : call.stage = .raising) :
      Moves g call { g with largestArity := g.arity call.handle1 } .unlocking

/-- What a step of a call does. -/
structure Steps (s : SharedNetwork) (call : AddCall) (s' : SharedNetwork) (call' : AddCall) :
    Prop where
  same : call' = { call with stage := call'.stage }
  wf : s'.net.Wf
  moves : Moves s.net.graph call s'.net.graph call'.stage
  ends : s.net.EndsOrNull → s'.net.EndsOrNull
  adds : ∃ ps, Adds s.net s'.net [] ps ∧ call.toAdd = ps ++ call'.toAdd
  place : call'.InPlace s'.net
  lock : s'.locked.toNat + call.stage.holds.toNat = s.locked.toNat + call'.stage.holds.toNat
  toGo : call'.stage.toGo < call.stage.toGo

/-- What the next step of a call may be. -/
def Outcome (s : SharedNetwork) (call : AddCall) :
    Except Obstacle (SharedNetwork × AddCall) → Prop
  | .ok (s', call') => call.Steps s s' call'
  | .error .waits => s.locked = true ∧ call.stage.holds = false
  | .error .returned => call.stage = .returned
  | .error (.fault _) => False

theorem source_eq (h : call.node1 = some a) : call.source = .ok a := by
  simp only [AddCall.source, h, deref, Except.mapError]

/-- A step that retouches the network and goes to another stage. -/
theorem Outcome.of_retouched (wf : s.net.Wf) (hplace : call.InPlace s.net) {stage : AddStage}
    (hadv : call.advance s = .ok (s', { call with stage := stage }))
    (hr : Retouched s.net s'.net) {g : Graph Key} (hg : s'.net.graph = g)
    (hmoves : Moves s.net.graph call g stage) (hends : s.net.EndsOrNull → s'.net.EndsOrNull)
    (hadd : stage.adds = call.stage.adds)
    (hcur : ∀ e, stage.current = some e → call.stage.current = some e)
    (hlock : s'.locked.toNat + call.stage.holds.toNat = s.locked.toNat + stage.holds.toNat)
    (hgo : stage.toGo < call.stage.toGo) : call.Outcome s (call.advance s) := by
  rw [hadv]
  have hplace' := hplace.grows hr.grows
  exact
    { same := rfl
      wf := hr.wf wf
      moves := hg ▸ hmoves
      ends := hends
      adds := ⟨[], .nothing hr, by simp only [toAdd, hadd, List.nil_append]⟩
      place :=
        { source := hplace'.source
          target := hplace'.target
          edge := fun e he => hplace'.edge e (hcur e he) }
      lock := hlock
      toGo := hgo }

/-- A step that only reads the network. -/
theorem Outcome.of_read (wf : s.net.Wf) (hplace : call.InPlace s.net) {stage : AddStage}
    {locked : Bool}
    (hadv : call.advance s = .ok ({ s with locked := locked }, { call with stage := stage }))
    (hmoves : Moves s.net.graph call s.net.graph stage) (hadd : stage.adds = call.stage.adds)
    (hcur : ∀ e, stage.current = some e → call.stage.current = some e)
    (hlock : locked.toNat + call.stage.holds.toNat = s.locked.toNat + stage.holds.toNat)
    (hgo : stage.toGo < call.stage.toGo) : call.Outcome s (call.advance s) :=
  .of_retouched wf hplace hadv (.refl _) rfl hmoves id hadd hcur hlock hgo

theorem outcome_called (wf : s.net.Wf) (hplace : call.InPlace s.net)
    (hs : call.stage = .called) : call.Outcome s (call.advance s) := by
  obtain ⟨a, h1, ha⟩ := hplace.source
  have hadv : call.advance s = .ok (s, { call with stage := .inserting }) := by
    simp only [advance, hs, h1]
  exact .of_read wf hplace hadv (.silent (by simp [hs]) (by simp [claims]) (by simp))
    (by simp [hs]) (by simp) (by simp [hs]) (by simp [hs])

/-- The step that inserts the edge. -/
theorem outcome_inserting (wf : s.net.Wf) (hplace : call.InPlace s.net)
    (hs : call.stage = .inserting) : call.Outcome s (call.advance s) := by
  obtain ⟨a, h1, ha⟩ := hplace.source
  obtain ⟨b, h2, hb⟩ := hplace.target
  have hsource := source_eq h1
  obtain ⟨e, net', hrun, wf', hi⟩ := insertEdge_spec wf ha (wf.isHandle hb)
  have hcall : s.call (insertEdge a call.handle2) = .ok (e, s.withNet net') :=
    SharedNetwork.call_ok hrun
  have hadv : call.advance s = .ok (s.withNet net', { call with stage := .inserted e }) := by
    simp only [advance, hs, hsource, bind, Except.bind, hcall]
  have hplace' := hplace.grows hi.grows
  rw [hadv]
  exact
    { same := rfl
      wf := wf'
      moves := by
        rw [SharedNetwork.withNet_net, hi.graph wf wf']
        exact .inserted hs
      ends := fun h => h.insertEdge wf' hi
      adds := ⟨[(call.handle1, call.handle2)], .edge hi, by simp [toAdd, hs]⟩
      place :=
        { source := hplace'.source
          target := hplace'.target
          edge := fun e' he' => Option.some.inj he' ▸ hi.bound }
      lock := by rw [hs]; rfl
      toGo := by rw [hs]; exact Nat.lt_succ_self _ }

/-- The step that looks whether the edge is new. -/
theorem outcome_inserted (wf : s.net.Wf) (hplace : call.InPlace s.net)
    (hs : call.stage = .inserted e) : call.Outcome s (call.advance s) := by
  have hedge := hplace.edge
  rw [hs] at hedge
  have hcount := graph_edgeCount (hedge e rfl)
  by_cases hc : (s.net.edge e).count = 1
  · have hadv : call.advance s = .ok (s, { call with stage := .settingNode1 e }) := by
      simp only [advance, hs, if_pos hc]
    exact .of_read wf hplace hadv
      (.silent (by simp [hs]) (by simp [claims, hs, hcount, hc]) (by simp))
      (by simp [hs]) (by simp [hs]) (by simp [hs]) (by simp [hs])
  · have hadv : call.advance s = .ok (s, { call with stage := .returned }) := by
      simp only [advance, hs, if_neg hc]
    exact .of_read wf hplace hadv (.silent (by simp [hs]) (by simp [claims]) (by simp))
      (by simp [hs]) (by simp) (by simp [hs]) (by simp [hs])

/-- The steps that set the ends of a new edge. -/
theorem outcome_settingNode1 (wf : s.net.Wf) (hplace : call.InPlace s.net)
    (hs : call.stage = .settingNode1 e) : call.Outcome s (call.advance s) := by
  obtain ⟨a, h1, ha⟩ := hplace.source
  have hedge := hplace.edge
  rw [hs] at hedge
  have hadv : call.advance s = .ok (s.withNet { s.net with
        edgeObjects := s.net.edgeObjects.modify e fun x => { x with node1 := call.node1 } },
      { call with stage := .settingNode2 e }) := by
    simp only [advance, hs]
  refine .of_retouched wf hplace hadv (.setEdge s.net e _ fun _ => rfl)
    (graph_setEdge s.net e _ fun _ => rfl)
    (.silent (by simp [hs]) (by simp [claims, hs]) (by simp)) (fun hends => ?_)
    (by simp [hs]) (by simp [hs]) (by simp [hs]) (by simp [hs])
  refine hends.setEdge wf (hedge e rfl) (fun _ => rfl) (fun x c hc => .inr ?_)
    fun x c hc => .inl hc
  obtain rfl : a = c := Option.some.inj (h1.symm.trans hc)
  exact ha

theorem outcome_settingNode2 (wf : s.net.Wf) (hplace : call.InPlace s.net)
    (hs : call.stage = .settingNode2 e) : call.Outcome s (call.advance s) := by
  obtain ⟨b, h2, hb⟩ := hplace.target
  have hedge := hplace.edge
  rw [hs] at hedge
  have hadv : call.advance s = .ok (s.withNet { s.net with
        edgeObjects := s.net.edgeObjects.modify e fun x => { x with node2 := call.node2 } },
      { call with stage := .readingArity }) := by
    simp only [advance, hs]
  refine .of_retouched wf hplace hadv (.setEdge s.net e _ fun _ => rfl)
    (graph_setEdge s.net e _ fun _ => rfl)
    (.silent (by simp [hs]) (by simp [claims, hs]) (by simp)) (fun hends => ?_)
    (by simp [hs]) (by simp) (by simp [hs]) (by simp [hs])
  refine hends.setEdge wf (hedge e rfl) (fun _ => rfl) (fun x c hc => .inl hc)
    fun x c hc => .inr ?_
  obtain rfl : b = c := Option.some.inj (h2.symm.trans hc)
  exact hb

/-- The steps that raise the arity. -/
theorem outcome_readingArity (wf : s.net.Wf) (hplace : call.InPlace s.net)
    (hs : call.stage = .readingArity) : call.Outcome s (call.advance s) := by
  obtain ⟨a, h1, ha⟩ := hplace.source
  have hsource := source_eq h1
  have harity : s.net.graph.arity call.handle1 = (s.net.node a).arity := graph_arity ha
  have hadv : call.advance s
      = .ok (s, { call with stage := .writingArity (s.net.node a).arity }) := by
    simp only [advance, hs, hsource, bind, Except.bind]
  exact .of_read wf hplace hadv (harity ▸ .loaded hs) (by simp [hs]) (by simp) (by simp [hs])
    (by simp [hs])

theorem outcome_writingArity (wf : s.net.Wf) (hplace : call.InPlace s.net) {arity : UInt32}
    (hs : call.stage = .writingArity arity) : call.Outcome s (call.advance s) := by
  obtain ⟨a, h1, ha⟩ := hplace.source
  have hsource := source_eq h1
  have hadv : call.advance s
      = .ok (s.withNet (s.net.modifyNode a fun n => { n with arity := arity + 1 }),
        { call with stage := .locking }) := by
    simp only [advance, hs, hsource, bind, Except.bind]
  exact .of_retouched wf hplace hadv (.setArity s.net a _) (graph_setArity wf ha _) (.stored hs)
    (fun hends => hends.retouched (.setArity s.net a _) rfl) (by simp [hs]) (by simp)
    (by simp [hs]) (by simp [hs])

/-- The step that locks `largest_arity_mutex`. -/
theorem outcome_locking (wf : s.net.Wf) (hplace : call.InPlace s.net)
    (hs : call.stage = .locking) : call.Outcome s (call.advance s) := by
  by_cases hl : s.locked = true
  · have hadv : call.advance s = .error .waits := by simp only [advance, hs, if_pos hl]
    rw [hadv]
    exact ⟨hl, by rw [hs]; rfl⟩
  · have hadv : call.advance s
        = .ok ({ s with locked := true }, { call with stage := .comparing }) := by
      simp only [advance, hs, if_neg hl]
    have hfree : s.locked = false := by simpa using hl
    exact .of_read wf hplace hadv (.silent (by simp [hs]) (by simp [claims]) (by simp))
      (by simp [hs]) (by simp) (by simp [hs, hfree]) (by simp [hs])

/-- The steps that compare the arity with the largest one and raise that. -/
theorem outcome_comparing (wf : s.net.Wf) (hplace : call.InPlace s.net)
    (hs : call.stage = .comparing) : call.Outcome s (call.advance s) := by
  obtain ⟨a, h1, ha⟩ := hplace.source
  have hsource := source_eq h1
  by_cases hlt : s.net.largestArity < (s.net.node a).arity
  · have hadv : call.advance s = .ok (s, { call with stage := .raising }) := by
      simp only [advance, hs, hsource, bind, Except.bind, if_pos hlt]
    exact .of_read wf hplace hadv (.silent (by simp [hs]) (by simp [claims]) (by simp))
      (by simp [hs]) (by simp) (by simp [hs]) (by simp [hs])
  · have hadv : call.advance s = .ok (s, { call with stage := .unlocking }) := by
      simp only [advance, hs, hsource, bind, Except.bind, if_neg hlt]
    exact .of_read wf hplace hadv (.silent (by simp [hs]) (by simp [claims]) (by simp))
      (by simp [hs]) (by simp) (by simp [hs]) (by simp [hs])

theorem outcome_raising (wf : s.net.Wf) (hplace : call.InPlace s.net)
    (hs : call.stage = .raising) : call.Outcome s (call.advance s) := by
  obtain ⟨a, h1, ha⟩ := hplace.source
  have hsource := source_eq h1
  have harity : s.net.graph.arity call.handle1 = (s.net.node a).arity := graph_arity ha
  have hadv : call.advance s
      = .ok (s.withNet { s.net with largestArity := (s.net.node a).arity },
        { call with stage := .unlocking }) := by
    simp only [advance, hs, hsource, bind, Except.bind]
  exact .of_retouched wf hplace hadv (.setLargest s.net _) rfl (harity ▸ .raised hs)
    (fun hends => hends.retouched (.setLargest s.net _) rfl) (by simp [hs]) (by simp)
    (by simp [hs]) (by simp [hs])

/-- The step that unlocks `largest_arity_mutex`. -/
theorem outcome_unlocking (wf : s.net.Wf) (hplace : call.InPlace s.net)
    (hs : call.stage = .unlocking) (hlock : call.stage.holds = true → s.locked = true) :
    call.Outcome s (call.advance s) := by
  have hheld : s.locked = true := hlock (by rw [hs]; rfl)
  have hadv : call.advance s
      = .ok ({ s with locked := false }, { call with stage := .returned }) := by
    simp only [advance, hs]
  exact .of_read wf hplace hadv (.silent (by simp [hs]) (by simp [claims]) (by simp))
      (by simp [hs]) (by simp) (by simp [hs, hheld]) (by simp [hs])

/-- **No step of a call in place fails.** -/
theorem outcome (wf : s.net.Wf) (hplace : call.InPlace s.net)
    (hlock : call.stage.holds = true → s.locked = true) : call.Outcome s (call.advance s) := by
  cases hs : call.stage with
  | called => exact outcome_called wf hplace hs
  | inserting => exact outcome_inserting wf hplace hs
  | inserted e => exact outcome_inserted wf hplace hs
  | settingNode1 e => exact outcome_settingNode1 wf hplace hs
  | settingNode2 e => exact outcome_settingNode2 wf hplace hs
  | readingArity => exact outcome_readingArity wf hplace hs
  | writingArity arity => exact outcome_writingArity wf hplace hs
  | locking => exact outcome_locking wf hplace hs
  | comparing => exact outcome_comparing wf hplace hs
  | raising => exact outcome_raising wf hplace hs
  | unlocking => exact outcome_unlocking wf hplace hs hlock
  | returned =>
    have hadv : call.advance s = .error .returned := by simp only [advance, hs]
    rw [hadv]
    exact hs

end AddCall

/-! ## The steps of a worker -/

/-- The pairs that the inner loop adds for `s1`. -/
def pairsOf (l : List Key) (s1 : Key) : List (Key × Key) :=
  l.flatMap fun s2 => if s1 < s2 then [(s1, s2), (s2, s1)] else []

/-- The handle has a node. -/
def Stored (net : HebbianNetwork) (k : Key) : Prop := ∃ a, net.nodeRef k = some a

namespace CorrelationLoop

variable {net net' : HebbianNetwork} {l : List Key} {loop : CorrelationLoop}

/-- The handles whose nodes the loops still add. -/
def nodesToAdd : CorrelationLoop → List Key
  | adding rest => rest
  | _ => []

/-- The pairs whose edges the loops still add. -/
def pairsToAdd (l : List Key) : CorrelationLoop → List (Key × Key)
  | idle => []
  | adding _ => Graph.edgePairs l
  | outer rest => rest.flatMap (pairsOf l)
  | inner s1 _ rest1 rest2 => pairsOf rest2 s1 ++ rest1.flatMap (pairsOf l)

/-- A bound on the steps of the loops over a list of `n` handles. -/
def toGo (n : Nat) : CorrelationLoop → Nat
  | idle => 0
  | adding rest => rest.length + n * (25 * n + 2) + 2
  | outer rest => rest.length * (25 * n + 2) + 1
  | inner _ _ rest1 rest2 => 25 * rest2.length + 1 + (rest1.length * (25 * n + 2) + 1)

/-- The loops are over a list, whose nodes are stored after the first loop. -/
def InPlace (net : HebbianNetwork) (l : List Key) : CorrelationLoop → Prop
  | idle => True
  | adding rest => (∀ k ∈ rest, k ∈ l) ∧ ∀ k ∈ l, k ∈ rest ∨ Stored net k
  | outer rest => (∀ k ∈ rest, k ∈ l) ∧ ∀ k ∈ l, Stored net k
  | inner s1 node1 rest1 rest2 => (∃ a, node1 = some a ∧ net.nodeRef s1 = some a) ∧
      (∀ k ∈ rest1, k ∈ l) ∧ (∀ k ∈ rest2, k ∈ l) ∧ ∀ k ∈ l, Stored net k

theorem InPlace.grows (h : loop.InPlace net l) (hg : Grows net net') : loop.InPlace net' l := by
  have hstored : ∀ k, Stored net k → Stored net' k := fun k => Exists.imp fun a => hg.node k a
  cases loop with
  | idle => trivial
  | adding rest => exact ⟨h.1, fun k hk => (h.2 k hk).imp_right (hstored k)⟩
  | outer rest => exact ⟨h.1, fun k hk => hstored k (h.2 k hk)⟩
  | inner s1 node1 rest1 rest2 =>
    obtain ⟨⟨a, h1, ha⟩, hrest1, hrest2, hall⟩ := h
    exact ⟨⟨a, h1, hg.node _ _ ha⟩, hrest1, hrest2, fun k hk => hstored k (hall k hk)⟩

end CorrelationLoop

namespace CorrelationWorker

variable {w w' : CorrelationWorker} {s s' : SharedNetwork} {net net' : HebbianNetwork}

/-- The handles whose nodes the worker still adds. -/
def nodesToAdd (w : CorrelationWorker) : List Key := w.loop.nodesToAdd ++ w.requests.flatten

/-- The pairs whose edges the worker still adds. -/
def pairsToAdd (w : CorrelationWorker) : List (Key × Key) :=
  w.calls.flatMap AddCall.toAdd ++
    (w.loop.pairsToAdd w.handleList ++ Graph.additions w.requests)

/-- The worker has `largest_arity_mutex`. -/
def holds (w : CorrelationWorker) : Bool :=
  match w.calls with
  | [] => false
  | call :: _ => call.stage.holds

/-- A bound on the steps of a request of `n` handles. -/
def stepBound (n : Nat) : Nat := n + n * (25 * n + 2) + 3

/-- A bound on the steps that the worker still makes. -/
def toGo (w : CorrelationWorker) : Nat :=
  (w.calls.map fun call => call.stage.toGo).sum + w.loop.toGo w.handleList.length +
    (w.requests.map fun l => stepBound l.length).sum

theorem nodesToAdd_append (ls ls' : List (List Key)) :
    (start (ls ++ ls')).nodesToAdd = (start ls).nodesToAdd ++ (start ls').nodesToAdd :=
  List.flatten_append

theorem pairsToAdd_append (ls ls' : List (List Key)) :
    (start (ls ++ ls')).pairsToAdd = (start ls).pairsToAdd ++ (start ls').pairsToAdd :=
  List.flatMap_append

/-- An updater without a request has nothing to add. -/
theorem Finished.toAdd (h : w.Finished) :
    w.nodesToAdd = [] ∧ w.pairsToAdd = [] := by
  obtain ⟨hrequests, hloop, hcalls⟩ := h
  constructor
  · rw [nodesToAdd, hrequests, hloop]
    rfl
  · rw [pairsToAdd, hrequests, hloop, hcalls]
    rfl

theorem Finished.holds (h : w.Finished) : w.holds = false := by
  rw [CorrelationWorker.holds, h.2.2]

theorem holds_start (ls : List (List Key)) : (start ls).holds = false := rfl

/-- What a worker relies on. -/
structure InPlace (net : HebbianNetwork) (w : CorrelationWorker) : Prop where
  requests : ∀ l ∈ w.requests, ∀ k ∈ l, IsHandle k
  handles : ∀ k ∈ w.handleList, IsHandle k
  loop : w.loop.InPlace net w.handleList
  calls : ∀ call ∈ w.calls, call.InPlace net
  next : ∀ call ∈ w.calls.tail, call.stage = .called

theorem InPlace.grows (h : w.InPlace net) (hg : Grows net net') : w.InPlace net' where
  requests := h.requests
  handles := h.handles
  loop := h.loop.grows hg
  calls call hc := (h.calls call hc).grows hg
  next := h.next

/-- What a step of a worker does to the graph. -/
inductive Moves (g : Graph Key) (w : CorrelationWorker) : Graph Key → CorrelationWorker → Prop
  | loop {g' : Graph Key} {w' : CorrelationWorker} (hc : w.calls = [])
      (hcalled : ∀ call ∈ w'.calls, call.stage = .called) (hg : g' = g ∨ ∃ k, g' = g.addNode k) :
      Moves g w g' w'
  | call {g' : Graph Key} {w' : CorrelationWorker} {call : AddCall} {calls : List AddCall}
      {stage : AddStage} (hc : w.calls = call :: calls)
      (hc' : w'.calls = { call with stage := stage } :: calls) (h : call.Moves g g' stage) :
      Moves g w g' w'
  | next {w' : CorrelationWorker} {call : AddCall} (hc : w.calls = call :: w'.calls)
      (hs : call.stage = .returned) : Moves g w g w'

/-- What a step of a worker does. -/
structure Steps (s : SharedNetwork) (w : CorrelationWorker) (s' : SharedNetwork)
    (w' : CorrelationWorker) : Prop where
  wf : s'.net.Wf
  moves : Moves s.net.graph w s'.net.graph w'
  ends : s.net.EndsOrNull → s'.net.EndsOrNull
  adds : ∃ ns ps, Adds s.net s'.net ns ps ∧ w.nodesToAdd = ns ++ w'.nodesToAdd ∧
    w.pairsToAdd = ps ++ w'.pairsToAdd
  place : w'.InPlace s'.net
  lock : s'.locked.toNat + w.holds.toNat = s.locked.toNat + w'.holds.toNat
  toGo : w'.toGo < w.toGo

/-- What the next step of a worker may be. -/
def Outcome (s : SharedNetwork) (w : CorrelationWorker) :
    Except Obstacle (SharedNetwork × CorrelationWorker) → Prop
  | .ok (s', w') => w.Steps s s' w'
  | .error .waits => s.locked = true ∧ w.holds = false
  | .error .returned => w.Finished
  | .error (.fault _) => False

/-- A step that adds nothing and takes the loops on. -/
theorem Steps.of_loop (wf : s.net.Wf) (hplace : w.InPlace s.net) (hc : w.calls = [])
    {loop : CorrelationLoop} (hloop : loop.InPlace s.net w.handleList)
    (hn : w.loop.nodesToAdd = loop.nodesToAdd)
    (hp : w.loop.pairsToAdd w.handleList = loop.pairsToAdd w.handleList)
    (hgo : loop.toGo w.handleList.length < w.loop.toGo w.handleList.length) :
    w.Steps s s { w with loop := loop } where
  wf := wf
  moves := .loop hc (by simp [hc]) (.inl rfl)
  ends := id
  adds := ⟨[], [], .nothing (.refl _), by rw [nodesToAdd, hn]; rfl, by rw [pairsToAdd, hp]; rfl⟩
  place :=
    { requests := hplace.requests
      handles := hplace.handles
      loop := hloop
      calls := hplace.calls
      next := hplace.next }
  lock := by simp only [holds, hc]
  toGo := Nat.add_lt_add_right (Nat.add_lt_add_left hgo _) _

/-- The step that takes the next request. -/
theorem outcome_idle (wf : s.net.Wf) (hplace : w.InPlace s.net) (hc : w.calls = [])
    (hl : w.loop = .idle) : w.Outcome s (w.advanceLoop s) := by
  have hempty : ∀ net : HebbianNetwork, ∀ call ∈ w.calls, call.InPlace net := by simp [hc]
  cases hr : w.requests with
  | nil =>
    simp only [advanceLoop, hl, hr]
    exact ⟨hr, hl, hc⟩
  | cons l ls =>
    have hreqs := hr ▸ hplace.requests
    simp only [advanceLoop, hl, hr]
    exact
      { wf := wf
        moves := .loop hc (by simp [hc]) (.inl rfl)
        ends := id
        adds := ⟨[], [], .nothing (.refl _),
          by simp [nodesToAdd, CorrelationLoop.nodesToAdd, hl, hr],
          by simp [pairsToAdd, CorrelationLoop.pairsToAdd, Graph.additions, hl, hr]⟩
        place :=
          { requests := fun l' hl' => hreqs l' (List.mem_cons_of_mem _ hl')
            handles := hreqs l List.mem_cons_self
            loop := ⟨fun _ hk => hk, fun _ hk => .inl hk⟩
            calls := hempty s.net
            next := hplace.next }
        lock := by simp only [holds, hc]
        toGo := by
          simp only [toGo, CorrelationLoop.toGo, stepBound, hl, hr, List.map_cons, List.sum_cons]
          omega }

/-- The steps of the loop that adds the nodes. -/
theorem outcome_adding (wf : s.net.Wf) (hplace : w.InPlace s.net) (hc : w.calls = [])
    {rest : List Key} (hl : w.loop = .adding rest) : w.Outcome s (w.advanceLoop s) := by
  have hloop := hplace.loop
  have hempty : ∀ net : HebbianNetwork, ∀ call ∈ w.calls, call.InPlace net := by simp [hc]
  rw [hl] at hloop
  cases rest with
  | nil =>
    simp only [advanceLoop, hl]
    refine .of_loop wf hplace hc ⟨fun _ hk => hk, fun k hk => ?_⟩ ?_ ?_ ?_
    · exact (hloop.2 k hk).resolve_left List.not_mem_nil
    · simp [CorrelationLoop.nodesToAdd, hl]
    · rw [hl]
      rfl
    · simp [CorrelationLoop.toGo, hl]
  | cons k rest =>
    have hk : IsHandle k := hplace.handles k (hloop.1 k List.mem_cons_self)
    obtain ⟨a, net', hrun, wf', hadd⟩ := addNode_spec wf hk
    have hcall : s.call (addNode k) = .ok (a, s.withNet net') := SharedNetwork.call_ok hrun
    have hnew : Stored net' k := ⟨a, by rw [hadd.nodeRef, Function.update_self]⟩
    have hloop' : (CorrelationLoop.adding rest).InPlace net' w.handleList := by
      refine ⟨fun k' hk' => hloop.1 k' (List.mem_cons_of_mem _ hk'), fun k' hk' => ?_⟩
      rcases hloop.2 k' hk' with hmem | hstored
      · rcases List.mem_cons.mp hmem with rfl | hmem
        · exact .inr hnew
        · exact .inl hmem
      · exact .inr (hstored.imp fun a => hadd.grows.node k' a)
    simp only [advanceLoop, hl, bind, Except.bind, hcall]
    exact
      { wf := wf'
        moves := .loop hc (by simp [hc]) (.inr ⟨k, hadd.graph wf wf'⟩)
        ends := fun h => h.addNode hadd
        adds := ⟨[k], [], .node hadd, by simp [nodesToAdd, CorrelationLoop.nodesToAdd, hl],
          by simp [pairsToAdd, CorrelationLoop.pairsToAdd, hl]⟩
        place :=
          { requests := hplace.requests
            handles := hplace.handles
            loop := hloop'
            calls := hempty net'
            next := hplace.next }
        lock := by simp only [holds, hc, SharedNetwork.withNet_locked]
        toGo := by
          simp only [toGo, CorrelationLoop.toGo, hl, List.length_cons]
          omega }

/-- The steps of the outer loop over the handles. -/
theorem outcome_outer (wf : s.net.Wf) (hplace : w.InPlace s.net) (hc : w.calls = [])
    {rest : List Key} (hl : w.loop = .outer rest) : w.Outcome s (w.advanceLoop s) := by
  have hloop := hplace.loop
  rw [hl] at hloop
  cases rest with
  | nil =>
    simp only [advanceLoop, hl]
    refine .of_loop wf hplace hc trivial ?_ ?_ ?_ <;> rw [hl]
    · rfl
    · rfl
    · simp [CorrelationLoop.toGo]
  | cons s1 rest =>
    have hs1 : s1 ∈ w.handleList := hloop.1 s1 List.mem_cons_self
    obtain ⟨a, ha⟩ := hloop.2 s1 hs1
    have hcall : s.call (lookupNode s1) = .ok (some a, s) :=
      ha ▸ SharedNetwork.call_ok (lookupNode_eq wf (hplace.handles s1 hs1))
    simp only [advanceLoop, hl, bind, Except.bind, hcall]
    refine .of_loop wf hplace hc ⟨⟨a, rfl, ha⟩, fun k hk => hloop.1 k (List.mem_cons_of_mem _ hk),
      fun _ hk => hk, hloop.2⟩ ?_ ?_ ?_ <;> rw [hl]
    · rfl
    · rfl
    · simp only [CorrelationLoop.toGo, List.length_cons, Nat.add_mul, Nat.one_mul]
      omega

/-- The steps of the inner loop over the handles. -/
theorem outcome_inner (wf : s.net.Wf) (hplace : w.InPlace s.net) (hc : w.calls = [])
    {s1 : Key} {node1 : Option Nat} {rest1 rest2 : List Key}
    (hl : w.loop = .inner s1 node1 rest1 rest2) : w.Outcome s (w.advanceLoop s) := by
  have hloop := hplace.loop
  rw [hl] at hloop
  obtain ⟨hsource, hrest1, hrest2, hall⟩ := hloop
  cases rest2 with
  | nil =>
    simp only [advanceLoop, hl]
    refine .of_loop wf hplace hc ⟨hrest1, hall⟩ ?_ ?_ ?_ <;> rw [hl]
    · rfl
    · rfl
    · simp only [CorrelationLoop.toGo, List.length_nil]
      omega
  | cons s2 rest2 =>
    have hloop' : (CorrelationLoop.inner s1 node1 rest1 rest2).InPlace s.net w.handleList :=
      ⟨hsource, hrest1, fun k hk => hrest2 k (List.mem_cons_of_mem _ hk), hall⟩
    by_cases hlt : s1 < s2
    · have hs2 : s2 ∈ w.handleList := hrest2 s2 List.mem_cons_self
      obtain ⟨b, hb⟩ := hall s2 hs2
      have hcall : s.call (lookupNode s2) = .ok (some b, s) :=
        hb ▸ SharedNetwork.call_ok (lookupNode_eq wf (hplace.handles s2 hs2))
      have hcalls : ∀ call ∈ symmetricCalls s1 s2 node1 (some b), call.InPlace s.net := by
        intro call hcall
        simp only [symmetricCalls, List.mem_cons, List.not_mem_nil, or_false] at hcall
        rcases hcall with rfl | rfl
        · exact ⟨hsource, ⟨b, rfl, hb⟩, by simp⟩
        · exact ⟨⟨b, rfl, hb⟩, hsource, by simp⟩
      simp only [advanceLoop, hl, if_pos hlt, bind, Except.bind, hcall]
      exact
        { wf := wf
          moves := .loop hc (by simp [symmetricCalls]) (.inl rfl)
          ends := id
          adds := ⟨[], [], .nothing (.refl _),
            by simp [nodesToAdd, CorrelationLoop.nodesToAdd, hl],
            by simp [pairsToAdd, symmetricCalls, AddCall.toAdd, CorrelationLoop.pairsToAdd,
              pairsOf, hl, hc, hlt]⟩
          place :=
            { requests := hplace.requests
              handles := hplace.handles
              loop := hloop'
              calls := hcalls
              next := by simp [symmetricCalls] }
          lock := by simp [holds, hc, symmetricCalls]
          toGo := by
            simp only [toGo, symmetricCalls, CorrelationLoop.toGo, AddStage.toGo, hl, hc,
              List.map_cons, List.map_nil, List.sum_cons, List.sum_nil, List.length_cons]
            omega }
    · simp only [advanceLoop, hl, if_neg hlt]
      refine .of_loop wf hplace hc hloop' ?_ ?_ ?_ <;> rw [hl]
      · rfl
      · simp [CorrelationLoop.pairsToAdd, pairsOf, hlt]
      · simp only [CorrelationLoop.toGo, List.length_cons]
        omega

/-- **No step of the loops fails.** -/
theorem outcome_loop (wf : s.net.Wf) (hplace : w.InPlace s.net) (hc : w.calls = []) :
    w.Outcome s (w.advanceLoop s) := by
  cases hl : w.loop with
  | idle => exact outcome_idle wf hplace hc hl
  | adding rest => exact outcome_adding wf hplace hc hl
  | outer rest => exact outcome_outer wf hplace hc hl
  | inner s1 node1 rest1 rest2 => exact outcome_inner wf hplace hc hl

/-- **No step of a worker in place fails.** -/
theorem outcome (wf : s.net.Wf) (hplace : w.InPlace s.net)
    (hlock : w.holds = true → s.locked = true) : w.Outcome s (w.advance s) := by
  cases hc : w.calls with
  | nil =>
    have hadv : w.advance s = w.advanceLoop s := by simp only [advance, hc]
    rw [hadv]
    exact outcome_loop wf hplace hc
  | cons call calls =>
    obtain ⟨requests, handleList, loop, calls'⟩ := w
    obtain rfl : calls' = call :: calls := hc
    obtain ⟨hreqs, hhandles, hloop, hcalls, hnext⟩ := hplace
    have hcalled : ∀ c ∈ calls, c.stage = .called := hnext
    by_cases hs : call.stage = .returned
    · -- the call has returned, and the next one has not begun
      have hadv : (CorrelationWorker.mk requests handleList loop (call :: calls)).advance s
          = .ok (s, ⟨requests, handleList, loop, calls⟩) := by simp only [advance, if_pos hs]
      have hfree : (CorrelationWorker.mk requests handleList loop calls).holds = false := by
        cases calls with
        | nil => rfl
        | cons c calls => simp [holds, hcalled c List.mem_cons_self]
      rw [hadv]
      exact
        { wf := wf
          moves := .next rfl hs
          ends := id
          adds := ⟨[], [], .nothing (.refl _), rfl, by simp [pairsToAdd, AddCall.toAdd, hs]⟩
          place :=
            { requests := hreqs
              handles := hhandles
              loop := hloop
              calls := fun c hc => hcalls c (List.mem_cons_of_mem _ hc)
              next := fun c hc => hcalled c (List.mem_of_mem_tail hc) }
          lock := by
            rw [hfree]
            simp [holds, hs]
          toGo := by simp [toGo, hs] }
    · have hout := AddCall.outcome wf (hcalls call List.mem_cons_self) hlock
      cases hcall : call.advance s with
      | ok r =>
        rw [hcall] at hout
        obtain ⟨s', call'⟩ := r
        obtain ⟨hsame, wf', hmoves, hends, ⟨ps, hadds, hps⟩, hplace', hlock', hgo⟩ := hout
        have hadv : (CorrelationWorker.mk requests handleList loop (call :: calls)).advance s
            = .ok (s', ⟨requests, handleList, loop, call' :: calls⟩) := by
          simp only [advance, if_neg hs, bind, Except.bind, hcall]
        rw [hadv]
        exact
          { wf := wf'
            moves := .call rfl (congrArg (· :: calls) hsame) hmoves
            ends := hends
            adds := ⟨[], ps, hadds, rfl, by
              simp only [pairsToAdd, List.flatMap_cons, hps, List.append_assoc]⟩
            place :=
              { requests := hreqs
                handles := hhandles
                loop := hloop.grows hadds.grows
                calls := List.forall_mem_cons.mpr ⟨hplace', fun c hc =>
                  (hcalls c (List.mem_cons_of_mem _ hc)).grows hadds.grows⟩
                next := hcalled }
            lock := hlock'
            toGo := by
              simp only [toGo, List.map_cons, List.sum_cons]
              omega }
      | error o =>
        rw [hcall] at hout
        have hadv : (CorrelationWorker.mk requests handleList loop (call :: calls)).advance s
            = .error o := by
          simp only [advance, if_neg hs, bind, Except.bind, hcall]
        rw [hadv]
        cases o with
        | waits => exact hout
        | returned => exact absurd hout hs
        | fault => exact hout.elim

end CorrelationWorker

end AttentionBroker
