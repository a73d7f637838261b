import Mathlib.Data.List.Perm.Basic
import AttentionBroker.Hebbian.Formula

/-!
# The order of requests

A stimulus moves tokens along the edges that the correlations before it have made. The order of
these correlations does not matter to it, nor does the order of the handles in a list or that in
which the map of a stimulus is iterated: occurrences and co-occurrences are added one by one, and
any two of these additions commute, arities and the largest arity included.
-/

namespace AttentionBroker

open Infra Finset

namespace Graph

variable {κ : Type*} [DecidableEq κ] {g : Graph κ}

/-! ## Additions commute -/

theorem addNode_comm (g : Graph κ) (a b : κ) :
    (g.addNode a).addNode b = (g.addNode b).addNode a := by
  refine Graph.ext (insert_comm b a g.nodes) ?_ rfl rfl rfl rfl rfl rfl rfl
  funext k
  rw [addNode_count, addNode_count, addNode_count, addNode_count, UInt32.add_assoc,
    UInt32.add_assoc, UInt32.add_comm (if k = a then 1 else 0)]

theorem addEdge_addNode (g : Graph κ) (p : κ × κ) (a : κ) :
    (g.addEdge p).addNode a = (g.addNode a).addEdge p := by
  have hcount : ((g.addNode a).insertEdge p.1 p.2).edgeCount
      = (g.insertEdge p.1 p.2).edgeCount := rfl
  unfold addEdge initEdge
  rw [hcount]
  split
  · rfl
  · rfl

/-- **Co-occurrences are added in any order.** Where two are the first of one node, its arity goes
through the same values. -/
theorem addEdge_comm (g : Graph κ) (p q : κ × κ) :
    (g.addEdge p).addEdge q = (g.addEdge q).addEdge p := by
  by_cases hpq : p = q
  · rw [hpq]
  obtain ⟨x, y⟩ := p
  obtain ⟨u, v⟩ := q
  have hleft : (g.addEdge (x, y)).edgeCount u v = g.edgeCount u v := by
    rw [addEdge_edgeCount, if_neg (Ne.symm hpq), UInt32.add_zero]
  have hright : (g.addEdge (u, v)).edgeCount x y = g.edgeCount x y := by
    rw [addEdge_edgeCount, if_neg hpq, UInt32.add_zero]
  refine Graph.ext (by simp [addEdge, insertEdge]) (by simp [addEdge, insertEdge]) ?_
    (by simp [addEdge, insertEdge]) (by simp [addEdge, insertEdge]) ?_ ?_ ?_
    (by simp [addEdge, insertEdge])
  · funext a
    simp only [addEdge_arity, hleft, hright]
    grind
  · funext a
    ext b
    simp only [addEdge_neighbors]
    tauto
  · funext a b
    simp only [addEdge_edgeCount]
    rw [UInt32.add_assoc, UInt32.add_assoc, UInt32.add_comm (if (a, b) = (x, y) then 1 else 0)]
  · simp only [addEdge_largestArity, addEdge_arity, hleft, hright]
    grind

/-! ## Correlations commute -/

theorem foldl_addNode_perm {l l' : List κ} (h : l.Perm l') (g : Graph κ) :
    l.foldl addNode g = l'.foldl addNode g :=
  h.foldl_eq' (fun a _ b _ g => addNode_comm g a b) g

theorem foldl_addEdge_perm {ps ps' : List (κ × κ)} (h : ps.Perm ps') (g : Graph κ) :
    ps.foldl addEdge g = ps'.foldl addEdge g :=
  h.foldl_eq' (fun p _ q _ g => addEdge_comm g p q) g

theorem foldl_addNode_addEdge (l : List κ) (g : Graph κ) (p : κ × κ) :
    (l.foldl addNode g).addEdge p = l.foldl addNode (g.addEdge p) :=
  (List.foldl_hom (fun g => g.addEdge p) (fun g a => addEdge_addNode g p a)).symm

theorem foldl_addEdge_foldl_addNode (ps : List (κ × κ)) (l : List κ) (g : Graph κ) :
    l.foldl addNode (ps.foldl addEdge g) = ps.foldl addEdge (l.foldl addNode g) :=
  (List.foldl_hom (fun g => l.foldl addNode g) fun g p => foldl_addNode_addEdge l g p).symm

section correlation

variable [LT κ] [DecidableLT κ] {l l' : List κ}

omit [DecidableEq κ] in
theorem edgePairs_perm (h : l.Perm l') : (edgePairs l).Perm (edgePairs l') :=
  h.flatMap fun _ _ => h.flatMap_right _

theorem correlation_perm (h : l.Perm l') (g : Graph κ) : g.correlation l = g.correlation l' := by
  rw [correlation, correlation, foldl_addNode_perm h, foldl_addEdge_perm (edgePairs_perm h)]

/-- Two correlations add all occurrences and then all co-occurrences. -/
theorem correlation_correlation (g : Graph κ) (l l' : List κ) :
    (g.correlation l).correlation l'
      = (edgePairs l ++ edgePairs l').foldl addEdge ((l ++ l').foldl addNode g) := by
  rw [correlation, correlation, foldl_addEdge_foldl_addNode, List.foldl_append, List.foldl_append]

/-- **The order of two correlations leaves no trace.** -/
theorem correlation_comm (g : Graph κ) (l l' : List κ) :
    (g.correlation l).correlation l' = (g.correlation l').correlation l := by
  have hnodes : (l ++ l').Perm (l' ++ l) := List.perm_append_comm
  have hedges : (edgePairs l ++ edgePairs l').Perm (edgePairs l' ++ edgePairs l) :=
    List.perm_append_comm
  rw [correlation_correlation, correlation_correlation, foldl_addNode_perm hnodes,
    foldl_addEdge_perm hedges]

end correlation

end Graph

/-! ## Requests -/

namespace Request

/-- The same request, with its handles or its entries in another order. -/
inductive Same : Request → Request → Prop
  | correlation {l l' : List Key} (h : l.Perm l') : Same (.correlation l) (.correlation l')
  | stimulus {q q' : HandleCount} (h : q.handleCount.Perm q'.handleCount) :
    Same (.stimulus q) (.stimulus q')

/-- The same requests, with those correlations that no stimulus separates in another order. -/
inductive Rearranged : List Request → List Request → Prop
  | nil : Rearranged [] []
  | cons {r r' : Request} {rs rs' : List Request} (h : Same r r') (hs : Rearranged rs rs') :
    Rearranged (r :: rs) (r' :: rs')
  | swap (l l' : List Key) (rs : List Request) :
    Rearranged (.correlation l :: .correlation l' :: rs) (.correlation l' :: .correlation l :: rs)
  | trans {rs₁ rs₂ rs₃ : List Request} (h : Rearranged rs₁ rs₂) (h' : Rearranged rs₂ rs₃) :
    Rearranged rs₁ rs₃

variable {r r' : Request} {rs rs' : List Request}

theorem Same.valid (h : Same r r') (hr : r.Valid) : r'.Valid := by
  cases h with
  | correlation h => exact fun k hk => hr k (h.mem_iff.mpr hk)
  | stimulus h => exact HandleCount.valid_perm h.symm hr

theorem Rearranged.valid (h : Rearranged rs rs') : (∀ r ∈ rs, r.Valid) → ∀ r ∈ rs', r.Valid := by
  induction h with
  | nil => exact id
  | cons h _ ih =>
    intro hr
    obtain ⟨hhead, htail⟩ := List.forall_mem_cons.mp hr
    exact List.forall_mem_cons.mpr ⟨h.valid hhead, ih htail⟩
  | swap l l' rs =>
    intro hr r hmem
    exact hr r ((List.Perm.swap _ _ rs).mem_iff.mp hmem)
  | trans _ _ ih ih' => exact ih' ∘ ih

theorem Same.process (h : Same r r') (g : Graph Key) : g.process r = g.process r' := by
  cases h with
  | correlation h => exact Graph.correlation_perm h g
  | stimulus h =>
    rw [Graph.process, Graph.process, HandleCount.named_perm h, HandleCount.boost_perm h]

/-- **What requests make of a graph does not depend on their arrangement.** -/
theorem Rearranged.process (h : Rearranged rs rs') : ∀ g : Graph Key,
    rs.foldl Graph.process g = rs'.foldl Graph.process g := by
  induction h with
  | nil => exact fun _ => rfl
  | cons h _ ih =>
    intro g
    rw [List.foldl_cons, List.foldl_cons, h.process, ih]
  | swap l l' rs =>
    intro g
    exact congrArg (rs.foldl Graph.process) (Graph.correlation_comm g l l')
  | trans _ _ ih ih' => exact fun g => (ih g).trans (ih' g)

end Request

namespace HebbianNetwork

/--
**The order of correlations between two stimuli does not matter.**

Valid requests are processed on a new network, one after the other, and so are the same requests
when correlations that no stimulus separates have changed places, handles have changed places in
their lists and the maps of stimuli are iterated in another order. Both complete, and all that can
be observed is the same: the importance of every node, the tokens left, arities, neighbors and
counts.
-/
theorem requests_confluent {requests requests' : List Request} (hr : ∀ r ∈ requests, r.Valid)
    (h : Request.Rearranged requests requests') :
    ∃ net net', run process new requests = some net ∧ run process new requests' = some net' ∧
      net.graph = net'.graph ∧
      (∀ k, IsHandle k → net.getNodeImportance k = net'.getNodeImportance k ∧
        net.getNodeCount k = net'.getNodeCount k) ∧
      ∀ k k', IsHandle k → IsHandle k' →
        net.getAsymmetricEdgeCount k k' = net'.getAsymmetricEdgeCount k k' := by
  obtain ⟨net, hrun, s, hg⟩ := run_process sound_new hr
  obtain ⟨net', hrun', s', hg'⟩ := run_process sound_new (h.valid hr)
  have hgraph : net.graph = net'.graph := by rw [hg, hg', h.process]
  refine ⟨net, net', hrun, hrun', hgraph, fun k hk => ⟨?_, ?_⟩, fun k k' hk hk' => ?_⟩
  · rw [getNodeImportance_eq s.wf hk, getNodeImportance_eq s'.wf hk, hgraph]
  · rw [getNodeCount_eq s.wf hk, getNodeCount_eq s'.wf hk, hgraph]
  · rw [getAsymmetricEdgeCount_eq s.wf hk hk', getAsymmetricEdgeCount_eq s'.wf hk hk', hgraph]

/-- The lists `ab` and `bc` before a stimulus, and `cb` and `ba` before it. -/
theorem requests_confluent_ab_bc :
    ∃ net net', run process new [.correlation [handleOf 97, handleOf 98],
        .correlation [handleOf 98, handleOf 99], .stimulus stimulusOfA] = some net ∧
      run process new [.correlation [handleOf 99, handleOf 98],
        .correlation [handleOf 98, handleOf 97], .stimulus stimulusOfA] = some net' ∧
      net.graph = net'.graph := by
  have hhandles : ∀ k ∈ [handleOf 97, handleOf 98, handleOf 99], IsHandle k := by
    decide +kernel
  have hvalid : ∀ r ∈ [Request.correlation [handleOf 97, handleOf 98],
      .correlation [handleOf 98, handleOf 99], .stimulus stimulusOfA], r.Valid := by
    simp only [List.forall_mem_cons] at hhandles ⊢
    obtain ⟨ha, hb, hc, -⟩ := hhandles
    exact ⟨List.forall_mem_cons.mpr ⟨ha, List.forall_mem_singleton.mpr hb⟩,
      List.forall_mem_cons.mpr ⟨hb, List.forall_mem_singleton.mpr hc⟩,
      stimulusOf_valid _ ha, List.forall_mem_nil _⟩
  obtain ⟨net, net', hrun, hrun', hgraph, -⟩ := requests_confluent hvalid <|
    .trans (.swap _ _ _) (.cons (.correlation (.swap _ _ _)) (.cons (.correlation (.swap _ _ _))
      (.cons (.stimulus (.refl _)) .nil)))
  exact ⟨net, net', hrun, hrun', hgraph⟩

end HebbianNetwork

end AttentionBroker
