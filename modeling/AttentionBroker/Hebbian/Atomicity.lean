import Mathlib.Data.List.TakeWhile
import AttentionBroker.Hebbian.Failures

/-!
# What a request that raises leaves

Neither request is atomic. A stimulus raises after `alienate_tokens`, so the network has lost the
tokens it had (`stimulus_raise_iff`). A correlation adds the handles in front of the first one of
the wrong length before it raises, and leaves the counts only if each of them merges into a node
that is there, and none of these nodes so often that its 32-bit count does not come back
(`correlation_raise_iff`).
-/

namespace AttentionBroker

open Infra

theorem HebbianNetwork.new_served : HebbianNetwork.new.Served := ⟨[], rfl⟩

namespace TokenSpreader

open HebbianNetwork

variable {net net' : HebbianNetwork} {request : HandleCount} {what : String}

/-! ## A stimulus -/

/-- **A stimulus that raises takes the tokens and leaves the rest.** -/
theorem spreadStimuli_raises (h : net.Served)
    (hrun : spreadStimuli request net = .error (.runtimeError what) net') :
    net' = { net with tokensToDistribute := 0 } := by
  rcases spreadStimuli_cases request h.loose with ⟨net₁, hok, -⟩ | ⟨e, net₁, herror, -, hnet⟩
  · rw [hok] at hrun
    cases hrun
  · rw [herror] at hrun
    cases hrun
    exact hnet what rfl

/--
**When a stimulus that raises leaves the network as it was.**

On a network that any requests have led to, it does if and only if no tokens are left to
distribute.
-/
theorem stimulus_raise_iff (h : net.Served)
    (hrun : spreadStimuli request net = .error (.runtimeError what) net') :
    net' = net ↔ net.tokensToDistribute = 0 := by
  rw [spreadStimuli_raises h hrun]
  constructor
  · intro hsame
    exact (congrArg HebbianNetwork.tokensToDistribute hsame).symm
  · intro h0
    rw [← h0]

/-- **A stimulus without a `SUM` raises** on every network that complete requests have led to. -/
theorem spreadStimuli_unsummed (h : net.Reachable) (hsum : request.find sumKey = none) :
    spreadStimuli request net
      = .error (.runtimeError "Missing 'SUM' key in HandleCount request")
        { net with tokensToDistribute := 0 } := by
  obtain ⟨data, hrent, -⟩ := collectRentPhase_simulates h.sound
  have htake : alienateTokens net
      = .ok net.tokensToDistribute { net with tokensToDistribute := 0 } := rfl
  have hwages : distributeWages request (net.tokensToDistribute + data.totalRent) data
      = .error (.runtimeError "Missing 'SUM' key in HandleCount request") := by
    unfold distributeWages
    rw [hsum]
  have hphase : distributeWagesPhase request data net
      = .error (.runtimeError "Missing 'SUM' key in HandleCount request")
        { net with tokensToDistribute := 0 } := by
    unfold distributeWagesPhase
    rw [NetM.bind_ok htake, hwages]
    rfl
  unfold spreadStimuli
  rw [NetM.bind_ok hrent]
  exact NetM.bind_error hphase

/-- The stimulus of `a` without its `SUM`. -/
def unsummedStimulus : HandleCount where
  handleCount := stimulusOfA.stimuli
  nodup := stimulusOfA.nodup.sublist (List.filter_sublist.map Prod.fst)

/-- `ab`, then a count of `a` without a `SUM`. -/
theorem stimulus_raise_iff_unsummed :
    { pairNetwork with tokensToDistribute := 0 } = pairNetwork ↔
      pairNetwork.tokensToDistribute = 0 :=
  stimulus_raise_iff pairNetwork_reachable.served
    (spreadStimuli_unsummed pairNetwork_reachable
      (by decide : unsummedStimulus.find sumKey = none))

/-- The tokens of a network with two nodes are lost. -/
theorem stimulus_raise_takes_tokens :
    spreadStimuli unsummedStimulus pairNetwork
        = .error (.runtimeError "Missing 'SUM' key in HandleCount request")
          { pairNetwork with tokensToDistribute := 0 } ∧
      pairNetwork.tokensToDistribute = 1 ∧
      { pairNetwork with tokensToDistribute := 0 } ≠ pairNetwork := by
  have htokens : pairNetwork.tokensToDistribute = 1 := by decide +kernel
  refine ⟨spreadStimuli_unsummed pairNetwork_reachable (by decide), htokens, fun h => ?_⟩
  have hzero := congrArg HebbianNetwork.tokensToDistribute h
  rw [htokens] at hzero
  exact zero_ne_one hzero

end TokenSpreader

/-! ## A correlation -/

namespace HebbianNetwork

variable {net net' : HebbianNetwork} {handles handleList : List Key} {what : String}

/-- The arity of a node, read as `get_node_count` reads the count. -/
def getNodeArity (net : HebbianNetwork) (handle : Key) : Except Fault UInt32 := do
  match ← net.nodes.lookup handle with
  | none => .ok 0
  | some a => .ok (net.node a).arity

/-- The nodes, counts and arities that can be read are the same. -/
structure SameCounts (net net' : HebbianNetwork) : Prop where
  nodes : ∀ h, (∃ a, net'.nodes.lookup h = .ok (some a)) ↔ ∃ a, net.nodes.lookup h = .ok (some a)
  nodeCount : ∀ h, net'.getNodeCount h = net.getNodeCount h
  edgeCount : ∀ h k, net'.getAsymmetricEdgeCount h k = net.getAsymmetricEdgeCount h k
  arity : ∀ h, net'.getNodeArity h = net.getNodeArity h
  largestArity : net'.largestArity = net.largestArity

/-- The handles in front of the first one of the wrong length. -/
def sizedPrefix (handleList : List Key) : List Key :=
  handleList.takeWhile fun s => s.length = handleHashSize - 1

/--
Every handle merges into a node that is there, and every node is met a multiple of `2 ^ 32` times.
No handle at all is the one way for this that a list of fewer than `2 ^ 32` handles has.
-/
def CountsReturn (t : HandleTrie Nat) (handles : List Key) : Prop :=
  ∃ met : List Nat, List.Forall₂ t.Merges handles met ∧ ∀ a, 2 ^ 32 ∣ met.count a

/-- `net'` is `net` with every node counted once more each time it is in the list. -/
structure Counted (net : HebbianNetwork) (met : List Nat) (net' : HebbianNetwork) : Prop where
  nodes : net'.nodes = net.nodes
  largestArity : net'.largestArity = net.largestArity
  edgeObjects : net'.edgeObjects = net.edgeObjects
  next : net.nodeObjects.next ≤ net'.nodeObjects.next
  node : ∀ a < net.nodeObjects.next, net'.node a
    = { net.node a with count := (net.node a).count + UInt32.ofNat (met.count a) }

theorem Counted.refl (net : HebbianNetwork) : Counted net [] net where
  nodes := rfl
  largestArity := rfl
  edgeObjects := rfl
  next := Nat.le_refl _
  node := fun a _ => by simp

/-- One more handle that merges. -/
theorem Counted.cons {net₁ : HebbianNetwork} {a : Nat} {met : List Nat}
    (hsame : net₁ = { net with nodes := net.nodes, nodeObjects := net₁.nodeObjects })
    (hobjects : net₁.nodeObjects = (HandleTrie.objectValue Node.merge).delete net.nodeObjects.next
      ((HandleTrie.objectValue Node.merge).merge a net.nodeObjects.next
        (net.nodeObjects.alloc Node.new)))
    (h : Counted net₁ met net') : Counted net (a :: met) net' := by
  have hnext : net₁.nodeObjects.next = net.nodeObjects.next + 1 := by rw [hobjects]; rfl
  have hnode : ∀ b < net.nodeObjects.next, net₁.node b
      = if b = a then (net.node b).merge Node.new else net.node b := by
    intro b hb
    rw [HebbianNetwork.node, hobjects]
    simp only [HandleTrie.objectValue]
    by_cases hba : b = a
    · subst hba
      rw [if_pos rfl, Pool.modify_cell_self, Pool.alloc_cell_next, Pool.alloc_cell_lt _ _ hb,
        HebbianNetwork.node]
    · rw [if_neg hba, Pool.modify_cell_ne _ _ hba, Pool.alloc_cell_lt _ _ hb, HebbianNetwork.node]
  constructor
  · rw [h.nodes, hsame]
  · rw [h.largestArity, hsame]
  · rw [h.edgeObjects, hsame]
  · have := h.next
    omega
  · intro b hb
    rw [h.node b (by omega), hnode b hb]
    by_cases hba : b = a
    · subst hba
      rw [if_pos rfl, List.count_cons_self]
      have hcount : (net.node b).count + 1 + UInt32.ofNat (met.count b)
          = (net.node b).count + UInt32.ofNat (met.count b + 1) := by
        rw [UInt32.ofNat_add, UInt32.add_assoc, UInt32.add_comm 1]
        rfl
      rw [← hcount]
      simp [Node.merge, Node.new]
    · rw [if_neg hba, List.count_cons_of_ne (Ne.symm hba)]

/-- The loop over the handles, as far as all of them have the right length. -/
theorem addHandles (g : net.Loose) (hsize : ∀ s ∈ handles, s.length = handleHashSize - 1)
    (hrun : handles.forM (fun s => discard (addNode s)) net = .ok () net') :
    HandleTrie.Extends net.nodes net'.nodes ∧ net'.Loose ∧
      ((∃ met, List.Forall₂ net.nodes.Merges handles met ∧ Counted net met net') ∨
        (∃ s ∈ handles, ∀ a, ¬ net.nodes.Merges s a) ∧
          ∃ k, (∀ a, ¬ net.nodes.Yields k a) ∧ ∃ a, net'.nodes.Yields k a) := by
  induction handles generalizing net with
  | nil =>
    obtain rfl : net = net' := by cases hrun; rfl
    exact ⟨HandleTrie.Extends.refl _, g, Or.inl ⟨[], List.Forall₂.nil, Counted.refl net⟩⟩
  | cons s handles ih =>
    have hs := hsize s List.mem_cons_self
    have hrest : ∀ s ∈ handles, s.length = handleHashSize - 1 := fun s hs =>
      hsize s (List.mem_cons_of_mem _ hs)
    have hks : net.nodes.keySize ≠ 255 := by rw [g.nodes.size]; decide
    rcases addNode_cases g s with ⟨hne, -⟩ | ⟨-, ⟨a, net₁, hadd, g₁, hsame, hret⟩ | hadd⟩
    · exact absurd hs hne
    · have hcons : (s :: handles).forM (fun s => discard (addNode s)) net
          = handles.forM (fun s => discard (addNode s)) net₁ :=
        NetM.forM_cons_ok (NetM.discard_ok hadd)
      have hrun := hcons.symm.trans hrun
      obtain ⟨e', g', hor⟩ := ih g₁ hrest hrun
      rcases hret.merges_or_reveals g.nodes.loose hks (hs.trans g.nodes.size.symm) with
        ⟨hmerges, hnodes, hobjects⟩ | ⟨hnot, e, k, hnone, a', hyields⟩
      · have hsame' : net₁ = { net with nodes := net.nodes, nodeObjects := net₁.nodeObjects } := by
          rw [hnodes] at hsame
          exact hsame
        rw [hnodes] at e' hor
        refine ⟨e', g', ?_⟩
        rcases hor with ⟨met, hmet, hcounted⟩ | ⟨⟨s', hs', hnot⟩, hk⟩
        · exact Or.inl ⟨a :: met, List.Forall₂.cons hmerges hmet, hcounted.cons hsame' hobjects⟩
        · exact Or.inr ⟨⟨s', List.mem_cons_of_mem _ hs', hnot⟩, hk⟩
      · exact ⟨e.trans e', g', Or.inr ⟨⟨s, List.mem_cons_self, hnot⟩, k, hnone, a',
          e'.yields g₁.nodes.loose g'.nodes.loose hyields⟩⟩
    · have herror : (s :: handles).forM (fun s => discard (addNode s)) net = .error .outOfBounds net :=
        NetM.bind_error (NetM.bind_error hadd)
      cases herror.symm.trans hrun

theorem length_of_mem_sizedPrefix {s : Key} (hs : s ∈ sizedPrefix handleList) :
    s.length = handleHashSize - 1 := by
  simpa using List.mem_takeWhile_imp hs

/-- What follows these handles. -/
theorem exists_bad (hall : ¬ ∀ s ∈ handleList, s.length = handleHashSize - 1) :
    ∃ bad rest, handleList = sizedPrefix handleList ++ bad :: rest ∧
      bad.length ≠ handleHashSize - 1 := by
  induction handleList with
  | nil => exact absurd (fun s hs => absurd hs List.not_mem_nil) hall
  | cons s l ih =>
    by_cases hs : s.length = handleHashSize - 1
    · have hl : ¬ ∀ s ∈ l, s.length = handleHashSize - 1 := fun h =>
        hall (List.forall_mem_cons.mpr ⟨hs, h⟩)
      obtain ⟨bad, rest, hsplit, hbad⟩ := ih hl
      refine ⟨bad, rest, ?_, hbad⟩
      rw [sizedPrefix, List.takeWhile_cons_of_pos (by simpa using hs), List.cons_append]
      exact congrArg _ hsplit
    · refine ⟨s, l, ?_, hs⟩
      rw [sizedPrefix, List.takeWhile_cons_of_neg (by simpa using hs), List.nil_append]

/-- A correlation that raises has only added the handles in front of the first bad one. -/
theorem correlation_raises (g : net.Loose)
    (hrun : correlation handleList net = .error (.runtimeError what) net') :
    (sizedPrefix handleList).forM (fun s => discard (addNode s)) net = .ok () net' := by
  have hall : ¬ ∀ s ∈ handleList, s.length = handleHashSize - 1 := by
    intro hall
    have h := keeps_correlation handleList net g
    rw [hrun] at h
    exact h.2 hall what rfl
  obtain ⟨bad, rest, hsplit, hbad⟩ := exists_bad hall
  have hquiet := NetM.keeps_forM (sizedPrefix handleList) (fun s hs =>
    (keeps_addNode fun _ : True => length_of_mem_sizedPrefix hs).discard) net g
  have hloop : ∀ {e net₁}, handleList.forM (fun s => discard (addNode s)) net = .error e net₁ →
      .runtimeError what = e ∧ net' = net₁ := by
    intro e net₁ hloop
    unfold correlation at hrun
    rw [NetM.bind_error hloop] at hrun
    cases hrun
    exact ⟨rfl, rfl⟩
  rw [hsplit, NetM.forM_append] at hloop
  rcases hpre : (sizedPrefix handleList).forM (fun s => discard (addNode s)) net with
    ⟨⟨⟩, net₁⟩ | ⟨e, net₁⟩ <;> rw [hpre] at hquiet
  · -- the bad handle is met with the handles in front of it added
    rcases addNode_cases hquiet bad with ⟨-, what', hadd⟩ | ⟨hlen, -⟩
    · rw [NetM.bind_ok hpre] at hloop
      rw [(hloop (NetM.bind_error (NetM.bind_error hadd))).2]
    · exact absurd hlen hbad
  · obtain ⟨he, -⟩ := hloop (NetM.bind_error hpre)
    exact absurd he.symm (hquiet.2 trivial what)

theorem exists_of_mem {α β : Type} {R : α → β → Prop} {l : List α} {l' : List β} {s : α}
    (h : List.Forall₂ R l l') (hs : s ∈ l) : ∃ a, R s a := by
  induction h with
  | nil => cases hs
  | cons hm _ ih =>
    rcases List.mem_cons.mp hs with rfl | hs
    · exact ⟨_, hm⟩
    · exact ih hs

/-- The condition is about the trie that the first loop starts with. -/
theorem merges_unique {t : HandleTrie Nat} (l : t.Sized) {met met' : List Nat}
    (h : List.Forall₂ t.Merges handles met) (h' : List.Forall₂ t.Merges handles met') :
    met = met' := by
  induction h generalizing met' with
  | nil => cases h'; rfl
  | cons hm _ ih =>
    cases h' with
    | cons hm' h' => rw [l.loose.yields_unique hm.yields hm'.yields, ih h']

/-- What is read of a network with one more count for each handle met. -/
theorem Counted.sameCounts_iff {met : List Nat} (g : net.Loose)
    (hmet : List.Forall₂ net.nodes.Merges handles met) (hc : Counted net met net') :
    SameCounts net net' ↔ ∀ a, 2 ^ 32 ∣ met.count a := by
  have hcount : ∀ a, 2 ^ 32 ∣ met.count a ↔ UInt32.ofNat (met.count a) = 0 := fun a => by
    rw [← UInt32.toNat_inj, UInt32.toNat_ofNat', Nat.dvd_iff_mod_eq_zero]
    rfl
  -- the nodes that are found are objects of the network before the call
  have hlt : ∀ {h a}, net.nodes.lookup h = .ok (some a) → a < net.nodeObjects.next := by
    intro h a ha
    obtain ⟨k, hk⟩ := (HandleTrie.yields_of_lookup g.nodes.loose ha).binds
    exact g.lt k a hk
  constructor
  · intro hsame a
    rw [hcount]
    by_cases ha : a ∈ met
    · obtain ⟨s, hs⟩ : ∃ s, net.nodes.Merges s a := exists_of_mem hmet.flip ha
      have hlookup := hs.yields.lookup g.nodes.loose
      have h := hsame.nodeCount s
      unfold getNodeCount at h
      rw [hc.nodes, hlookup] at h
      have h := Except.ok.inj h
      rw [hc.node a (hlt hlookup)] at h
      simpa using h
    · rw [List.count_eq_zero_of_not_mem ha]
      rfl
  · intro hall
    have hnode : ∀ {h a}, net.nodes.lookup h = .ok (some a) → net'.node a = net.node a := by
      intro h a ha
      rw [hc.node a (hlt ha), (hcount a).mp (hall a), UInt32.add_zero]
    constructor
    · intro h
      rw [hc.nodes]
    · intro h
      unfold getNodeCount
      rw [hc.nodes]
      rcases hl : net.nodes.lookup h with e | _ | a
      · rfl
      · rfl
      · exact congrArg (fun n => Except.ok n.count) (hnode hl)
    · intro h k
      unfold getAsymmetricEdgeCount
      rw [hc.nodes]
      rcases hl : net.nodes.lookup h with e | _ | a
      · rfl
      · rfl
      · simp only [bind, Except.bind, hnode hl, HebbianNetwork.edge, hc.edgeObjects]
    · intro h
      unfold getNodeArity
      rw [hc.nodes]
      rcases hl : net.nodes.lookup h with e | _ | a
      · rfl
      · rfl
      · exact congrArg (fun n => Except.ok n.arity) (hnode hl)
    · exact hc.largestArity

/--
**When a correlation that raises leaves the counts as they were.**

On a network that any requests have led to, it does if and only if every handle in front of the
first one of the wrong length merges into a node that is there, and every node is met a multiple
of `2 ^ 32` times.
-/
theorem correlation_raise_iff (h : net.Served)
    (hrun : correlation handleList net = .error (.runtimeError what) net') :
    SameCounts net net' ↔ CountsReturn net.nodes (sizedPrefix handleList) := by
  have g := h.loose
  obtain ⟨e, g', hor⟩ := addHandles g (fun s hs => length_of_mem_sizedPrefix hs)
    (correlation_raises g hrun)
  rcases hor with ⟨met, hmet, hcounted⟩ | ⟨⟨s, hs, hnot⟩, k, hnone, a, hyields⟩
  · rw [hcounted.sameCounts_iff g hmet]
    constructor
    · exact fun hcount => ⟨met, hmet, hcount⟩
    · rintro ⟨met', hmet', hcount⟩
      rwa [merges_unique g.nodes hmet hmet']
  · constructor
    · -- a handle is found that was not found
      intro hsame
      obtain ⟨b, hb⟩ := (hsame.nodes k).mp ⟨a, hyields.lookup g'.nodes.loose⟩
      exact absurd (HandleTrie.yields_of_lookup g.nodes.loose hb) (hnone b)
    · rintro ⟨met, hmet, -⟩
      obtain ⟨a, ha⟩ := exists_of_mem hmet hs
      exact absurd ha (hnot a)

/-- `a` and a handle of one byte, on a new network. -/
theorem correlation_raise_iff_a : ∃ what net',
    correlation [handleOf 97, [120]] new = .error (.runtimeError what) net' ∧
      (SameCounts new net' ↔ CountsReturn new.nodes (sizedPrefix [handleOf 97, [120]])) :=
  ⟨_, _, rfl, correlation_raise_iff new_served
    (show correlation [handleOf 97, [120]] new = .error (.runtimeError _) _ from rfl)⟩

/-- The request has failed, and the node is there. -/
theorem correlation_raise_adds_node : ∃ what net',
    correlation [handleOf 97, [120]] new = .error (.runtimeError what) net' ∧
      new.getNodeCount (handleOf 97) = .ok 0 ∧ net'.getNodeCount (handleOf 97) = .ok 1 ∧
      ¬ SameCounts new net' := by
  refine ⟨_, _, rfl, rfl, rfl, fun h => ?_⟩
  cases h.nodeCount (handleOf 97)

end HebbianNetwork

end AttentionBroker
