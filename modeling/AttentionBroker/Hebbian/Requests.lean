import AttentionBroker.Infra.Transition
import AttentionBroker.Hebbian.Cycle

/-!
# Requests that run one after the other

`process` runs one request to its end on a network. A network is `Reachable` when a
sequence of valid requests leads to it from a new one. On valid requests `process` is total
and is `Graph.process`, so what holds of every graph that requests lead to holds of every
reachable network.
-/

namespace AttentionBroker

open Infra Finset

/-- The handle made of one symbol. -/
def handleOf (symbol : UInt8) : Key := List.replicate (handleHashSize - 1) symbol

/-- A stimulus of one handle. -/
def stimulusOf (k : Key) (hk : k ≠ sumKey) : HandleCount where
  handleCount := [(k, ⟨1, by decide⟩), (sumKey, ⟨1, by decide⟩)]
  nodup := by simp [hk]

/-- A stimulus of `a`. -/
def stimulusOfA : HandleCount := stimulusOf (handleOf 97) (by decide)

/-- A request of the server, without the network it is for. -/
inductive Request where
  | correlation (handleList : List Key)
  | stimulus (handleCount : HandleCount)
deriving DecidableEq

namespace Request

/-- What a worker runs for a request. -/
def call : Request → NetM Unit
  | correlation handleList => HebbianNetwork.correlation handleList
  | stimulus handleCount => TokenSpreader.spreadStimuli handleCount

/-- A request that completes: its handles are handles, and a stimulus has a sum. -/
def Valid : Request → Prop
  | correlation handleList => ∀ k ∈ handleList, IsHandle k
  | stimulus handleCount => handleCount.Valid

/-- The handles of a correlation request. -/
def handleList? : Request → Option (List Key)
  | correlation handleList => some handleList
  | stimulus _ => none

end Request

theorem stimulusOf_valid {k : Key} (hk : k ≠ sumKey) (hh : IsHandle k) :
    (stimulusOf k hk).Valid := by
  have hbeq : (sumKey == k) = false := by simpa using hk.symm
  refine ⟨⟨⟨1, by decide⟩, ?_⟩, ?_⟩
  · simp [HandleCount.find, stimulusOf, List.lookup_cons, hbeq]
  · intro e he hne
    simp only [stimulusOf, List.mem_cons, List.not_mem_nil, or_false] at he
    rcases he with rfl | rfl
    · exact hh
    · exact absurd rfl hne

/-- A request, on the graph of a network. -/
def Graph.process (g : Graph Key) : Request → Graph Key
  | .correlation handleList => g.correlation handleList
  | .stimulus handleCount => g.stimulate TokenSpreader.rates handleCount.named handleCount.boost

namespace HebbianNetwork

variable {net net' : HebbianNetwork} {r : Request} {requests : List Request}

/-- One complete request. There is no network after a request that raises. -/
def process (net : HebbianNetwork) (r : Request) : Option HebbianNetwork :=
  match r.call net with
  | .ok _ net' => some net'
  | .error _ _ => none

theorem process_of_ok (h : r.call net = .ok () net') : net.process r = some net' := by
  unfold process
  rw [h]

/-- **A valid request completes and is simulated.** -/
theorem process_simulates (s : net.Sound) (hr : r.Valid) :
    ∃ net', net.process r = some net' ∧ net'.Sound ∧ net'.graph = net.graph.process r := by
  cases r with
  | correlation l =>
    obtain ⟨net', hrun, s', hg⟩ := correlation_simulates s hr
    exact ⟨net', process_of_ok hrun, s', hg⟩
  | stimulus q =>
    obtain ⟨net', hrun, s', hg⟩ := TokenSpreader.spreadStimuli_simulates s hr
    exact ⟨net', process_of_ok hrun, s', hg⟩

theorem process_eq (s : net.Sound) (hr : r.Valid) (hp : net.process r = some net') :
    net'.Sound ∧ net'.graph = net.graph.process r := by
  obtain ⟨net₁, hp₁, s₁, hg₁⟩ := process_simulates s hr
  obtain rfl := Option.some.inj (hp.symm.trans hp₁)
  exact ⟨s₁, hg₁⟩

/-- **A sequence of valid requests completes and is simulated.** -/
theorem run_process (s : net.Sound) (hr : ∀ r ∈ requests, r.Valid) :
    ∃ net', run process net requests = some net' ∧ net'.Sound ∧
      net'.graph = requests.foldl Graph.process net.graph := by
  induction requests generalizing net with
  | nil => exact ⟨net, rfl, s, rfl⟩
  | cons r rs ih =>
    obtain ⟨net₁, hp₁, s₁, hg₁⟩ := process_simulates s (hr r List.mem_cons_self)
    obtain ⟨net₂, hp₂, s₂, hg₂⟩ := ih s₁ fun r' hr' => hr r' (List.mem_cons_of_mem _ hr')
    refine ⟨net₂, ?_, s₂, ?_⟩
    · rw [run, hp₁, Option.bind_some, hp₂]
    · rw [hg₂, hg₁, List.foldl_cons]

theorem graph_new : new.graph = Graph.empty := by
  refine Graph.ext ?_ ?_ ?_ ?_ ?_ ?_ ?_ rfl rfl
  · show (newHandleTrie : HandleTrie Nat).keys.toFinset = ∅
    rw [newHandleTrie, HandleTrie.keys_new]
    rfl
  · exact funext fun k => nodeField_none (nodeRef_new k)
  · exact funext fun k => nodeField_none (nodeRef_new k)
  · exact funext fun k => nodeField_none (nodeRef_new k)
  · exact funext fun k => nodeField_none (nodeRef_new k)
  · exact funext fun k => nodeField_none (nodeRef_new k)
  · exact funext fun k => funext fun h => graph_edgeCount_none (edgeRef_new k h)

/-- A network that complete requests lead to. -/
def Reachable (net : HebbianNetwork) : Prop :=
  ∃ requests : List Request, (∀ r ∈ requests, r.Valid) ∧ run process new requests = some net

theorem run_new_eq (hr : ∀ r ∈ requests, r.Valid) (hrun : run process new requests = some net) :
    net.Sound ∧ net.graph = requests.foldl Graph.process Graph.empty := by
  obtain ⟨net', hrun', s', hg'⟩ := run_process sound_new hr
  obtain rfl := Option.some.inj (hrun.symm.trans hrun')
  rw [graph_new] at hg'
  exact ⟨s', hg'⟩

theorem Reachable.sound (h : net.Reachable) : net.Sound := by
  obtain ⟨requests, hr, hrun⟩ := h
  exact (run_new_eq hr hrun).1

/-- The network after some requests. -/
def afterRequests (requests : List Request) : HebbianNetwork := (run process new requests).getD new

theorem reachable_afterRequests (hr : ∀ r ∈ requests, r.Valid) :
    (afterRequests requests).Reachable := by
  obtain ⟨net, hrun, -⟩ := run_process sound_new hr
  exact ⟨requests, hr, by rw [afterRequests, hrun, Option.getD_some]⟩

/-- The network after `ab`, where a letter stands for the handle made of it. -/
def pairNetwork : HebbianNetwork := afterRequests [.correlation [handleOf 97, handleOf 98]]

theorem pairRequests_valid :
    ∀ r ∈ [Request.correlation [handleOf 97, handleOf 98]], r.Valid := by
  intro r hr
  obtain rfl := List.mem_singleton.mp hr
  exact (by decide +kernel : ∀ k ∈ [handleOf 97, handleOf 98], IsHandle k)

theorem run_pairNetwork :
    run process new [.correlation [handleOf 97, handleOf 98]] = some pairNetwork := by
  obtain ⟨net, hrun, -⟩ := run_process sound_new pairRequests_valid
  rw [pairNetwork, afterRequests, hrun]
  rfl

theorem pairNetwork_reachable : pairNetwork.Reachable :=
  ⟨_, pairRequests_valid, run_pairNetwork⟩

/-- What requests keep on graphs, reachable networks have. -/
theorem Reachable.invariant (Inv : Graph Key → Prop) (h0 : Inv Graph.empty)
    (hstep : ∀ g r, Inv g → Inv (Graph.process g r)) (h : net.Reachable) : Inv net.graph := by
  obtain ⟨requests, hr, hrun⟩ := h
  rw [(run_new_eq hr hrun).2]
  exact List.foldlRecOn requests Graph.process h0 fun g hg r _ => hstep g r hg

/-- The neighbors of a node are nodes. -/
theorem Sound.neighbors_subset (s : net.Sound) (k : Key) :
    net.graph.neighbors k ⊆ net.graph.nodes := by
  intro h hh
  obtain ⟨e, he⟩ := s.wf.mem_neighbors.mp hh
  exact s.wf.mem_nodes.mpr (s.ends.stored k h e he)

end HebbianNetwork

end AttentionBroker
