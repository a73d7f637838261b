import AttentionBroker.Infra.Parties
import AttentionBroker.Hebbian.Counting
import AttentionBroker.Trie.Threads

/-!
# Workers that correlate at the same time

Several workers call `correlation` on one network. A call of a trie is one step, because it takes
effect at one moment, and so is every read and write of `add_asymmetric_edge` outside a trie: the
count of the edge, its ends, the arity of its source and `largest_arity`. Only the last is
protected by a mutex.

`CorrelationWorker.alone` says that the steps of a worker that nobody disturbs are those of
`correlation`.
-/

namespace AttentionBroker

open Infra HebbianNetwork

/-- A network and whether its `largest_arity_mutex` is locked. -/
structure SharedNetwork where
  net : HebbianNetwork
  locked : Bool

namespace SharedNetwork

/-- A call on the network. -/
def call {α : Type} (s : SharedNetwork) (x : NetM α) : Except Obstacle (α × SharedNetwork) :=
  match x s.net with
  | .ok v net => .ok (v, { s with net := net })
  | .error e _ => .error (.fault e)

/-- Changes the network. -/
def withNet (s : SharedNetwork) (net : HebbianNetwork) : SharedNetwork := { s with net := net }

@[simp] theorem withNet_net (s : SharedNetwork) (net : HebbianNetwork) :
    (s.withNet net).net = net := rfl

@[simp] theorem withNet_locked (s : SharedNetwork) (net : HebbianNetwork) :
    (s.withNet net).locked = s.locked := rfl

theorem call_ok {α : Type} {s : SharedNetwork} {x : NetM α} {v : α} {net : HebbianNetwork}
    (h : x s.net = .ok v net) : s.call x = .ok (v, s.withNet net) := by
  simp only [call, h, withNet]

end SharedNetwork

/-- How far a call of `add_asymmetric_edge` is. -/
inductive AddStage where
  | called
  | inserting
  | inserted (edge : Nat)
  | settingNode1 (edge : Nat)
  | settingNode2 (edge : Nat)
  | readingArity
  | writingArity (arity : UInt32)
  | locking
  | comparing
  | raising
  | unlocking
  | returned
deriving DecidableEq

/-- A call of `add_asymmetric_edge`. -/
structure AddCall where
  handle1 : Key
  handle2 : Key
  node1 : Option Nat
  node2 : Option Nat
  stage : AddStage
deriving DecidableEq

/-- The object that `node1` points to. -/
def AddCall.source (call : AddCall) : Except Obstacle Nat := (deref call.node1).mapError .fault

/-- The next step of `add_asymmetric_edge`. -/
def AddCall.advance (call : AddCall) (s : SharedNetwork) :
    Except Obstacle (SharedNetwork × AddCall) :=
  match call.stage with
  | .called =>
    match call.node1 with
    | none => do
      let (node1, s) ← s.call (lookupNode call.handle1)
      .ok (s, { call with node1 := node1, stage := .inserting })
    | some _ => .ok (s, { call with stage := .inserting })
  | .inserting => do
    let a ← call.source
    let (edge, s) ← s.call (insertEdge a call.handle2)
    .ok (s, { call with stage := .inserted edge })
  | .inserted edge =>
    if (s.net.edge edge).count = 1 then .ok (s, { call with stage := .settingNode1 edge })
    else .ok (s, { call with stage := .returned })
  | .settingNode1 edge =>
    let net := { s.net with
      edgeObjects := s.net.edgeObjects.modify edge fun e => { e with node1 := call.node1 } }
    .ok (s.withNet net, { call with stage := .settingNode2 edge })
  | .settingNode2 edge =>
    let net := { s.net with
      edgeObjects := s.net.edgeObjects.modify edge fun e => { e with node2 := call.node2 } }
    .ok (s.withNet net, { call with stage := .readingArity })
  | .readingArity => do
    let a ← call.source
    .ok (s, { call with stage := .writingArity (s.net.node a).arity })
  | .writingArity arity => do
    let a ← call.source
    .ok (s.withNet (s.net.modifyNode a fun n => { n with arity := arity + 1 }),
      { call with stage := .locking })
  | .locking =>
    if s.locked then .error .waits
    else .ok ({ s with locked := true }, { call with stage := .comparing })
  | .comparing => do
    let a ← call.source
    if s.net.largestArity < (s.net.node a).arity then .ok (s, { call with stage := .raising })
    else .ok (s, { call with stage := .unlocking })
  | .raising => do
    let a ← call.source
    .ok (s.withNet { s.net with largestArity := (s.net.node a).arity },
      { call with stage := .unlocking })
  | .unlocking => .ok ({ s with locked := false }, { call with stage := .returned })
  | .returned => .error .returned

/-- Where the loops of `correlation` are. -/
inductive CorrelationLoop where
  /-- Between two requests. -/
  | idle
  /-- The first loop, with the handles to come. -/
  | adding (rest : List Key)
  /-- The outer loop, with the values of `s1` to come. -/
  | outer (rest : List Key)
  /-- The inner loop, with the values of `s2` to come before those of `s1`. -/
  | inner (s1 : Key) (node1 : Option Nat) (rest1 rest2 : List Key)
deriving DecidableEq

/-- A worker with its correlation requests. -/
structure CorrelationWorker where
  requests : List (List Key)
  handleList : List Key
  loop : CorrelationLoop
  /-- The calls of `add_asymmetric_edge` that the body of the inner loop still makes. -/
  calls : List AddCall

namespace CorrelationWorker

/-- A worker that has not taken its first request. -/
def start (requests : List (List Key)) : CorrelationWorker :=
  { requests := requests, handleList := [], loop := .idle, calls := [] }

/-- The two calls of `add_symmetric_edge`. -/
def symmetricCalls (s1 s2 : Key) (node1 node2 : Option Nat) : List AddCall :=
  [{ handle1 := s1, handle2 := s2, node1 := node1, node2 := node2, stage := .called },
    { handle1 := s2, handle2 := s1, node1 := node2, node2 := node1, stage := .called }]

/-- The next step of the loops. -/
def advanceLoop (w : CorrelationWorker) (s : SharedNetwork) :
    Except Obstacle (SharedNetwork × CorrelationWorker) :=
  match w.loop with
  | .idle =>
    match w.requests with
    | [] => .error .returned
    | l :: ls => .ok (s, { w with requests := ls, handleList := l, loop := .adding l })
  | .adding [] => .ok (s, { w with loop := .outer w.handleList })
  | .adding (k :: rest) => do
    let (_, s) ← s.call (addNode k)
    .ok (s, { w with loop := .adding rest })
  | .outer [] => .ok (s, { w with loop := .idle })
  | .outer (s1 :: rest) => do
    let (node1, s) ← s.call (lookupNode s1)
    .ok (s, { w with loop := .inner s1 node1 rest w.handleList })
  | .inner _ _ rest1 [] => .ok (s, { w with loop := .outer rest1 })
  | .inner s1 node1 rest1 (s2 :: rest2) =>
    if s1 < s2 then do
      let (node2, s) ← s.call (lookupNode s2)
      .ok (s, { w with
        loop := .inner s1 node1 rest1 rest2, calls := symmetricCalls s1 s2 node1 node2 })
    else .ok (s, { w with loop := .inner s1 node1 rest1 rest2 })

/-- The next step of a worker: of the call that it makes, or of its loops. -/
def advance (w : CorrelationWorker) (s : SharedNetwork) :
    Except Obstacle (SharedNetwork × CorrelationWorker) :=
  match w.calls with
  | [] => w.advanceLoop s
  | call :: calls =>
    if call.stage = .returned then .ok (s, { w with calls := calls })
    else do
      let (s, call) ← call.advance s
      .ok (s, { w with calls := call :: calls })

/-- All requests are processed. -/
def Finished (w : CorrelationWorker) : Prop := w.requests = [] ∧ w.loop = .idle ∧ w.calls = []

instance (w : CorrelationWorker) : Decidable w.Finished :=
  inferInstanceAs (Decidable (_ ∧ _ ∧ _))

end CorrelationWorker

/-! ## A worker alone -/

namespace CorrelationWorker

variable {s s' : SharedNetwork} {net net' : HebbianNetwork} {w w' : CorrelationWorker}
  {call call' : AddCall} {calls : List AddCall} {l : List Key}

/-- A worker makes a step. -/
def Does (p q : SharedNetwork × CorrelationWorker) : Prop := p.2.advance p.1 = .ok q

/-- A worker makes some steps. -/
abbrev Runs : SharedNetwork × CorrelationWorker → SharedNetwork × CorrelationWorker → Prop :=
  Relation.ReflTransGen Does

theorem does_call (hs : call.stage ≠ .returned) (h : call.advance s = .ok (s', call')) :
    Does (s, { w with calls := call :: calls }) (s', { w with calls := call' :: calls }) := by
  simp only [Does, advance, if_neg hs, h, bind, Except.bind]

theorem does_return (hs : call.stage = .returned) :
    Does (s, { w with calls := call :: calls }) (s, { w with calls := calls }) := by
  simp only [Does, advance, if_pos hs]

theorem does_loop (hc : w.calls = []) (h : w.advanceLoop s = .ok (s', w')) :
    Does (s, w) (s', w') := by
  simp only [Does, advance, hc, h]

/-- A network whose `largest_arity_mutex` is not locked. -/
def free (net : HebbianNetwork) : SharedNetwork := { net := net, locked := false }

/-- The steps that update `largest_arity`. -/
theorem cap_alone {a : Nat} (h1 : call.node1 = some a) (hs : call.stage = .locking) :
    Runs (free net, { w with calls := call :: calls })
      (free { net with largestArity :=
          if net.largestArity < (net.node a).arity then (net.node a).arity else net.largestArity },
        { w with calls := calls }) := by
  let atStage : AddStage → AddCall := fun stage => { call with stage := stage }
  have hsource : ∀ stage, (atStage stage).source = .ok a := fun stage => by
    simp only [AddCall.source, atStage, h1, deref, Except.mapError]
  have hlock : Does (free net, { w with calls := call :: calls })
      ({ net := net, locked := true }, { w with calls := atStage .comparing :: calls }) :=
    does_call (by simp [hs]) (by simp [AddCall.advance, hs, free, atStage])
  have hunlock : ∀ net : HebbianNetwork, Does ({ net := net, locked := true },
      { w with calls := atStage .unlocking :: calls })
      (free net, { w with calls := atStage .returned :: calls }) := fun net =>
    does_call (by simp [atStage]) rfl
  have hend : ∀ net : HebbianNetwork, Runs ({ net := net, locked := true },
      { w with calls := atStage .unlocking :: calls }) (free net, { w with calls := calls }) :=
    fun net => .head (hunlock net) (.single (does_return rfl))
  refine .head hlock ?_
  by_cases hlt : net.largestArity < (net.node a).arity
  · rw [if_pos hlt]
    refine .head
      (b := ({ net := net, locked := true }, { w with calls := atStage .raising :: calls }))
      (does_call (by simp [atStage]) ?_) (.head (does_call (by simp [atStage]) ?_) (hend _))
    · show (do let a ← (atStage .comparing).source; _) = _
      rw [hsource]
      exact if_pos hlt
    · show (do let a ← (atStage .raising).source; _) = _
      rw [hsource]
      rfl
  · rw [if_neg hlt]
    refine .head (does_call (by simp [atStage]) ?_) (hend net)
    show (do let a ← (atStage .comparing).source; _) = _
    rw [hsource]
    exact if_neg hlt

/-- The statements for a new edge, one after the other. -/
theorem setEnds_alone {a e : Nat} (h1 : call.node1 = some a) (hs : call.stage = .settingNode1 e) :
    Runs (free net, { w with calls := call :: calls })
      (free (net.setEnds e a call.node2), { w with calls := calls }) := by
  let atStage : AddStage → AddCall := fun stage => { call with stage := stage }
  have hsource : ∀ stage, (atStage stage).source = .ok a := fun stage => by
    simp only [AddCall.source, atStage, h1, deref, Except.mapError]
  let net₁ := { net with
    edgeObjects := net.edgeObjects.modify e fun x => { x with node1 := call.node1 } }
  let net₂ := { net₁ with
    edgeObjects := net₁.edgeObjects.modify e fun x => { x with node2 := call.node2 } }
  let net₃ := net₂.modifyNode a fun n => { n with arity := (net.node a).arity + 1 }
  have hset : net.setEnds e a call.node2 = { net₃ with largestArity :=
      if net₃.largestArity < (net₃.node a).arity then (net₃.node a).arity
      else net₃.largestArity } := by
    have hedges : net₂.edgeObjects = net.edgeObjects.modify e fun x =>
        { x with node1 := some a, node2 := call.node2 } := by
      rw [← h1]
      exact Pool.modify_modify net.edgeObjects e (fun x => { x with node1 := call.node1 })
        fun x => { x with node2 := call.node2 }
    have harity : (net₃.node a).arity = (net.node a).arity + 1 :=
      congrArg Node.arity (Pool.modify_cell_self net.nodeObjects a
        fun n => { n with arity := (net.node a).arity + 1 })
    rw [harity, setEnds, ← hedges]
    rfl
  rw [hset]
  refine .head (b := (free net₁, { w with calls := atStage (.settingNode2 e) :: calls }))
    (does_call (by simp [hs]) (by simp only [AddCall.advance, hs]; rfl)) ?_
  refine .head (b := (free net₂, { w with calls := atStage .readingArity :: calls }))
    (does_call (by simp [atStage]) rfl) ?_
  refine .head
    (b := (free net₂, { w with calls := atStage (.writingArity (net.node a).arity) :: calls }))
    (does_call (by simp [atStage]) ?_) ?_
  · show (do let a ← (atStage .readingArity).source; _) = _
    rw [hsource]
    rfl
  refine .head (b := (free net₃, { w with calls := atStage .locking :: calls }))
    (does_call (by simp [atStage]) ?_) ?_
  · show (do let a ← (atStage (.writingArity (net.node a).arity)).source; _) = _
    rw [hsource]
    rfl
  have hnode1 : (atStage .locking).node1 = some a := h1
  exact cap_alone hnode1 rfl

/-- A call that is past the search for its source. -/
theorem inserting_alone {a e : Nat} (h1 : call.node1 = some a) (hs : call.stage = .inserting)
    (hrun : (do let edge ← insertEdge a call.handle2
                initEdge edge a call.node2
                return edge : NetM Nat) net = .ok e net') :
    Runs (free net, { w with calls := call :: calls }) (free net', { w with calls := calls }) := by
  obtain ⟨edge, net₁, hinsert, hrun⟩ := NetM.bind_eq_ok.mp hrun
  obtain ⟨_, net₂, hinit, hpure⟩ := NetM.bind_eq_ok.mp hrun
  cases hpure
  let call₁ : AddCall := { call with stage := .inserted e }
  have hsource : call.source = .ok a := by simp only [AddCall.source, h1, deref, Except.mapError]
  have hcall : (free net).call (insertEdge a call.handle2) = .ok (e, free net₁) :=
    SharedNetwork.call_ok hinsert
  have hstep : Does (free net, { w with calls := call :: calls })
      (free net₁, { w with calls := call₁ :: calls }) :=
    does_call (by simp [hs])
      (by simp only [AddCall.advance, hs, hsource, bind, Except.bind, hcall]; rfl)
  refine .head hstep ?_
  by_cases hc : (net₁.edge e).count = 1
  · have htest : Does (free net₁, { w with calls := call₁ :: calls })
        (free net₁, { w with calls := { call with stage := .settingNode1 e } :: calls }) :=
      does_call (by simp [call₁]) (if_pos hc)
    have hset : net' = net₁.setEnds e a call.node2 := by
      rw [initEdge, if_pos hc] at hinit
      cases hinit
      rfl
    rw [hset]
    exact .head htest (setEnds_alone h1 rfl)
  · have htest : Does (free net₁, { w with calls := call₁ :: calls })
        (free net₁, { w with calls := { call with stage := .returned } :: calls }) :=
      does_call (by simp [call₁]) (if_neg hc)
    rw [initEdge_skip hc] at hinit
    cases hinit
    exact .head htest (.single (does_return rfl))

/-- **The steps of a call that nobody disturbs are `add_asymmetric_edge`.** -/
theorem call_alone {e : Nat} (hs : call.stage = .called)
    (hrun : addAsymmetricEdge call.handle1 call.handle2 call.node1 call.node2 net = .ok e net') :
    Runs (free net, { w with calls := call :: calls }) (free net', { w with calls := calls }) := by
  obtain ⟨node1, net₁, hnode1, hrun⟩ : ∃ node1 net₁,
      (match call.node1 with
        | none => lookupNode call.handle1
        | some a => pure (some a) : NetM (Option Nat)) net = .ok node1 net₁ ∧
      (match node1 with
        | none => throw .nullPointer
        | some a => do
          let edge ← insertEdge a call.handle2
          initEdge edge a call.node2
          return edge : NetM Nat) net₁ = .ok e net' := by
    unfold addAsymmetricEdge at hrun
    cases h1 : call.node1 with
    | none =>
      rw [h1] at hrun
      exact NetM.bind_eq_ok.mp hrun
    | some a =>
      rw [h1] at hrun
      exact ⟨some a, net, rfl, hrun⟩
  -- the source is looked up if it was not given
  have hstep : Does (free net, { w with calls := call :: calls })
      (free net₁,
        { w with calls := { call with node1 := node1, stage := .inserting } :: calls }) := by
    refine does_call (by simp [hs]) ?_
    cases h1 : call.node1 with
    | none =>
      rw [h1] at hnode1
      have hcall : (free net).call (lookupNode call.handle1) = .ok (node1, free net₁) :=
        SharedNetwork.call_ok hnode1
      simp only [AddCall.advance, hs, h1, bind, Except.bind, hcall]
    | some a =>
      rw [h1] at hnode1
      cases hnode1
      simp only [AddCall.advance, hs, h1]
  cases node1 with
  | none => cases hrun
  | some a => exact .head hstep (inserting_alone rfl rfl hrun)

/-- The body of the inner loop. -/
theorem inner_alone {s1 : Key} {node1 : Option Nat} {rest1 : List Key} : ∀ (l : List Key)
    {net net' : HebbianNetwork},
    (l.forM fun s2 => if s1 < s2 then do
        let node2 ← lookupNode s2
        addSymmetricEdge s1 s2 node1 node2
      else pure ()) net = .ok () net' →
    Runs (free net, { w with loop := .inner s1 node1 rest1 l, calls := [] })
      (free net', { w with loop := .outer rest1, calls := [] }) := by
  intro l
  induction l with
  | nil =>
    intro net net' hrun
    cases hrun
    exact .single (does_loop rfl rfl)
  | cons s2 l ih =>
    intro net net' hrun
    obtain ⟨_, net₁, hbody, hrun⟩ := NetM.bind_eq_ok.mp hrun
    refine Relation.ReflTransGen.trans ?_ (ih hrun)
    change (if s1 < s2 then _ else _ : NetM Unit) net = _ at hbody
    by_cases hlt : s1 < s2
    · rw [if_pos hlt] at hbody
      obtain ⟨node2, net₂, hlookup, hbody⟩ := NetM.bind_eq_ok.mp hbody
      obtain ⟨_, net₃, hfirst, hsecond⟩ := NetM.bind_eq_ok.mp hbody
      obtain ⟨e, hfirst⟩ := NetM.discard_eq_ok.mp hfirst
      obtain ⟨e', hsecond⟩ := NetM.discard_eq_ok.mp hsecond
      have hcall : (free net).call (lookupNode s2) = .ok (node2, free net₂) :=
        SharedNetwork.call_ok hlookup
      have hstep : Does (free net, { w with loop := .inner s1 node1 rest1 (s2 :: l), calls := [] })
          (free net₂, { w with
            loop := .inner s1 node1 rest1 l, calls := symmetricCalls s1 s2 node1 node2 }) :=
        does_loop rfl (by simp only [advanceLoop, if_pos hlt, bind, Except.bind, hcall])
      let w₁ : CorrelationWorker := { w with loop := .inner s1 node1 rest1 l, calls := [] }
      exact .head hstep ((call_alone (w := w₁) rfl hfirst).trans (call_alone (w := w₁) rfl hsecond))
    · rw [if_neg hlt] at hbody
      cases hbody
      exact .single (does_loop rfl (by simp only [advanceLoop, if_neg hlt]))

/-- The outer loop. -/
theorem outer_alone : ∀ (l : List Key) {net net' : HebbianNetwork},
    (l.forM fun s1 => do
      let node1 ← lookupNode s1
      w.handleList.forM fun s2 =>
        if s1 < s2 then do
          let node2 ← lookupNode s2
          addSymmetricEdge s1 s2 node1 node2
        else pure ()) net = .ok () net' →
    Runs (free net, { w with loop := .outer l, calls := [] })
      (free net', { w with loop := .idle, calls := [] }) := by
  intro l
  induction l with
  | nil =>
    intro net net' hrun
    cases hrun
    exact .single (does_loop rfl rfl)
  | cons s1 l ih =>
    intro net net' hrun
    obtain ⟨_, net₁, hbody, hrun⟩ := NetM.bind_eq_ok.mp hrun
    obtain ⟨node1, net₂, hlookup, hbody⟩ := NetM.bind_eq_ok.mp hbody
    have hcall : (free net).call (lookupNode s1) = .ok (node1, free net₂) :=
      SharedNetwork.call_ok hlookup
    have hstep : Does (free net, { w with loop := .outer (s1 :: l), calls := [] })
        (free net₂, { w with loop := .inner s1 node1 l w.handleList, calls := [] }) :=
      does_loop rfl (by simp only [advanceLoop, bind, Except.bind, hcall])
    exact .head hstep ((inner_alone w.handleList hbody).trans (ih hrun))

/-- The first loop. -/
theorem adding_alone : ∀ (l : List Key) {net net' : HebbianNetwork},
    (l.forM fun s => discard (addNode s)) net = .ok () net' →
    Runs (free net, { w with loop := .adding l, calls := [] })
      (free net', { w with loop := .outer w.handleList, calls := [] }) := by
  intro l
  induction l with
  | nil =>
    intro net net' hrun
    cases hrun
    exact .single (does_loop rfl rfl)
  | cons k l ih =>
    intro net net' hrun
    obtain ⟨_, net₁, hbody, hrun⟩ := NetM.bind_eq_ok.mp hrun
    obtain ⟨a, hadd⟩ := NetM.discard_eq_ok.mp hbody
    have hcall : (free net).call (addNode k) = .ok (a, free net₁) := SharedNetwork.call_ok hadd
    exact .head (does_loop rfl (by simp only [advanceLoop, bind, Except.bind, hcall])) (ih hrun)

/-- **The steps of a worker that nobody disturbs are `correlation`.** -/
theorem alone {ls : List (List Key)} (hw : w.requests = l :: ls) (hl : w.loop = .idle)
    (hc : w.calls = []) (hrun : correlation l net = .ok () net') :
    Runs (free net, w)
      (free net', { requests := ls, handleList := l, loop := .idle, calls := [] }) := by
  obtain ⟨_, net₁, hadd, hpairs⟩ := NetM.bind_eq_ok.mp hrun
  let w₁ : CorrelationWorker :=
    { requests := ls, handleList := l, loop := .adding l, calls := [] }
  have htake : Does (free net, w) (free net, w₁) :=
    does_loop hc (by simp only [advanceLoop, hl, hw, hc, w₁])
  exact .head htake ((adding_alone (w := w₁) l hadd).trans (outer_alone (w := w₁) l hpairs))

end CorrelationWorker

/-- The workers and the network that they share. -/
abbrev CorrelationThreads := Parties SharedNetwork CorrelationWorker

end AttentionBroker
